import BayesGraph.Proofs.ResolvedForms
import BayesGraph.Proofs.Renumbering
import BayesGraph.Proofs.Safety
import BayesGraph.Proofs.ScalarDistributions

/-!
# Densities are available

The density of a built graph is a number at every vector of coordinates, or the evaluation raises an
error of the arithmetic and the density is the least number. No other error arises at a node whose
expressions fit and whose distribution has scalars as parameters and bounds (`Role.Fits`): safety
provides for the values and functions that the node asks for, and what it computes from them is
contained. Along a run this keeps all slots numeric and all sums scalars.
-/

set_option autoImplicit false

namespace BayesGraph

open Outcome

variable {α : Type} [Scalar α]

/-- The expressions of a node fit under the values of an environment, and the parameters and bounds
of a distribution have no dimensions. -/
structure Role.Fits (env : Environment α) (role : Role) : Prop where
  parts : ∀ e ∈ role.parts, e.Fits env
  scalars : ∀ law, role.dist? = some law → ∀ e ∈ law.parts, ∀ v, e.eval env = .ok v → v.shape = []

/-- All slots that are filled hold numbers or arrays of numbers, and the sums are scalars. -/
structure Evaluation.IsNumeric (ev : Evaluation α) : Prop where
  slots : ∀ j v, ev.slots j = some v → v.IsNumeric
  prior : ∃ a, ev.logPrior.Holds a
  likelihood : ∃ a, ev.logLikelihood.Holds a
  jacobian : ∃ a, ev.logJacobian.Holds a

namespace Graph

/-! ## Single nodes -/

section Nodes

variable {g : Graph} {r : Registry α} {calls : CallMode} {slots : Slots α} {n : Node}

omit [Scalar α] in
/-- What a member of a list calls is called in the list. -/
theorem calls_subset_of_mem {e : Expr} {es : List Expr} (he : e ∈ es) :
    e.calls ⊆ Expr.callsOfAll es := by
  induction es with
  | nil => cases he
  | cons first rest ih =>
    rcases List.mem_cons.mp he with rfl | he
    · exact List.subset_append_left _ _
    · exact List.Subset.trans (ih he) (List.subset_append_right _ _)

/-- At a safe node, an expression that fits computes numbers. -/
theorem SafeAt.contained_eval (hsafe : g.SafeAt r calls slots n)
    (hnumeric : ∀ j v, slots j = some v → v.IsNumeric) {e : Expr} (he : e ∈ n.role.parts)
    (hresolved : e.Resolved) (hfits : e.Fits (g.environment r calls slots)) :
    Contained (e.eval (g.environment r calls slots)) Value.IsNumeric := by
  apply Expr.contained_eval rfl hresolved hfits
  · intro name hname
    exact hsafe.functions name (calls_subset_of_mem he hname)
  · intro id hid
    obtain ⟨refs, hrefs, hfilled⟩ := hsafe.filled
    obtain ⟨own, hown, hsub⟩ := Expr.refs_of_refsOfAll hrefs he
    obtain ⟨j, v, hj, hv⟩ := hfilled id (hsub (hid.mem_refs hown))
    have hlookup : (g.environment r calls slots).lookup id = .ok v := by
      simp [environment, hj, hv]
    rw [hlookup]
    exact hnumeric j v hv

/-- If expressions are evaluated to what is expected, so are lists of them. -/
theorem contained_evalAll {env : Environment α} {P : Value α → Prop} {es : List Expr}
    (h : ∀ e ∈ es, Contained (e.eval env) P) :
    Contained (Expr.evalAll env es) fun vs => ∀ v ∈ vs, P v := by
  induction es with
  | nil => simp [Expr.evalAll, Contained]
  | cons e es ih =>
    rw [List.forall_mem_cons] at h
    refine h.1.bind fun v hv => ?_
    refine (ih h.2).bind fun vs hvs => ?_
    exact List.forall_mem_cons.mpr ⟨hv, hvs⟩

/-- At a safe node that fits, the distribution has scalars as parameters and bounds. -/
theorem SafeAt.contained_bindDist (hsafe : g.SafeAt r calls slots n) (hr : r.Sound)
    (hnumeric : ∀ j v, slots j = some v → v.IsNumeric) (hresolved : ∀ e ∈ n.role.parts, e.Resolved)
    (hfits : n.role.Fits (g.environment r calls slots)) {law : Dist}
    (hlaw : n.role.dist? = some law) :
    Contained (bindDist r (g.environment r calls slots) law) BoundDist.OfScalars := by
  obtain ⟨f, hf⟩ := hsafe.family law hlaw
  have hparts : ∀ e ∈ law.parts,
      Contained (e.eval (g.environment r calls slots)) (Value.IsArray · []) := by
    intro e he
    have hmem : e ∈ n.role.parts := by
      unfold Role.parts
      cases hrole : n.role <;> simp_all [Role.dist?]
    have hvalue := hsafe.contained_eval hnumeric hmem (hresolved e hmem) (hfits.parts e hmem)
    exact (hvalue.and_of_ok (hfits.scalars law hlaw e he)).mono fun v hv => ⟨hv.1, hv.2⟩
  simp only [Dist.parts, Dist.bounds, List.mem_append, or_imp, forall_and] at hparts
  obtain ⟨hparams, hlower, hupper⟩ := hparts
  have hbound : Contained (bindDist r (g.environment r calls slots) law) fun d =>
      d.family = f ∧ (∀ p ∈ d.params, p.IsArray []) ∧ (∀ b ∈ d.lower, b.IsArray []) ∧
        ∀ b ∈ d.upper, b.IsArray [] := by
    unfold bindDist
    refine (contained_evalAll hparams).bind fun params hps => ?_
    refine (Contained.optionMapM fun e he => hlower e (by simpa using he)).bind fun lower hl => ?_
    refine (Contained.optionMapM fun e he => hupper e (by simpa using he)).bind fun upper hu => ?_
    rw [hf]
    exact ⟨rfl, hps, hl, hu⟩
  refine (hbound.and_of_ok (hsafe.bound law · hlaw)).mono fun d hd => ?_
  obtain ⟨⟨rfl, hps, hl, hu⟩, hcount, hlogCdf⟩ := hd
  obtain ⟨name, -, hname⟩ := Option.bind_eq_some_iff.mp hf
  exact ⟨hr name _ hname, hcount, hps, hl, hu, hlogCdf⟩

end Nodes

/-! ## Terms and sums -/

section Terms

variable {d : BoundDist α} {x sum : Value α}

/-- The logarithm of a density at a scalar is one computed scalar. -/
theorem contained_densityTerms (mode : EvaluationMode) (hd : d.OfScalars) (hx : x.IsArray []) :
    Contained (densityTerms mode d x) fun ts => ∀ t ∈ ts, ∃ y, t = .scalar y := by
  unfold densityTerms
  split
  · have hlogPdf := (BoundDist.contained_logPdf hd hx).and_of_ok fun v hv =>
      BoundDist.logPdf_isDensity hv
    refine hlogPdf.bind fun v hv => ?_
    exact List.forall_mem_singleton.mpr (hv.2.exists_scalar hv.1.shape_eq)
  · simp [Contained, Pure.pure, Except.pure]

/-- A coordinate is placed without dimensions, and its slope is one computed scalar. -/
theorem contained_locate (mode : EvaluationMode) (hd : d.OfScalars) (y : α) :
    Contained (locate mode d y) fun p => p.1.IsArray [] ∧ ∀ t ∈ p.2, ∃ z, t = .scalar z := by
  have hy : (Value.scalar y).IsArray [] := ⟨trivial, rfl⟩
  unfold locate
  split
  · have hplaced := (BoundDist.contained_toConstrained hd hy).and_of_ok
      (Q := fun p => p.2.IsDensity) fun p hp => ?_
    · refine hplaced.bind fun p hp => ?_
      exact ⟨hp.1.1, List.forall_mem_singleton.mpr (hp.2.exists_scalar hp.1.2.shape_eq)⟩
    · simp only [BoundDist.toConstrained, bind_eq_ok, pure_eq_ok] at hp
      obtain ⟨t, -, x, -, slope, hslope, rfl⟩ := hp
      exact Bijection.logJacobian_isDensity t.map hslope ⟨.scalar y, rfl⟩
  · exact ⟨hy, by simp⟩

/-- Scalars are added to a scalar. -/
theorem contained_addTerms {terms : List (Value α)} (hsum : ∃ a, sum.Holds a)
    (hterms : ∀ t ∈ terms, ∃ y, t = .scalar y) :
    Contained (addTerms sum terms) fun total => ∃ b, total.Holds b := by
  refine Contained.foldlM hsum fun t ht c hc => ?_
  obtain ⟨y, rfl⟩ := hterms t ht
  obtain ⟨a, ha⟩ := hc
  obtain ⟨s, b, hs, hb⟩ := ha.exists_add (Or.inr rfl : (Value.scalar y).Holds y)
  rw [hs]
  exact ⟨b, hb⟩

end Terms

/-! ## Runs -/

omit [Scalar α] in
/-- Slots of numeric values stay so when a numeric value is put into one of them. -/
theorem numeric_put {slots : Slots α} {v : Value α} (h : ∀ j w, slots j = some w → w.IsNumeric)
    (hv : v.IsNumeric) (i : Nat) : ∀ j w, slots.put i v j = some w → w.IsNumeric := by
  intro j w hw
  unfold Slots.put at hw
  split at hw
  · exact Option.some.inj hw ▸ hv
  · exact h j w hw

section Visits

variable {g : Graph} {r : Registry α} {mode : EvaluationMode} {theta : List α}

/-- At the start all values are numeric. -/
theorem numeric_start : (Evaluation.start : Evaluation α).IsNumeric where
  slots j v h := by cases h
  prior := ⟨_, Or.inl rfl⟩
  likelihood := ⟨_, Or.inl rfl⟩
  jacobian := ⟨_, Or.inl rfl⟩

/-- A visit of a node that fits. -/
theorem contained_visit {ev : Evaluation α} {i : Nat} {n : Node} (hr : r.Sound)
    (hn : g.nodes[i]? = some n) (hsafe : g.SafeAt r mode.calls ev.slots n)
    (hcoordinate : n.role.isParameter = true → ∃ y, g.coordinate? theta i = some y)
    (hresolved : ∀ e ∈ n.role.parts, e.Resolved)
    (hfits : n.role.Fits (g.environment r mode.calls ev.slots)) (hev : ev.IsNumeric) :
    Contained (g.visit r mode theta ev i) Evaluation.IsNumeric := by
  obtain ⟨hslots, hprior, hlikelihood, hjacobian⟩ := hev
  have hbind : ∀ law, n.role.dist? = some law →
      Contained (bindDist r (g.environment r mode.calls ev.slots) law) BoundDist.OfScalars :=
    fun law hlaw => hsafe.contained_bindDist hr hslots hresolved hfits hlaw
  unfold visit
  rw [hn]
  dsimp only
  cases hrole : n.role with
  | logical e =>
    have he : e ∈ n.role.parts := by simp [hrole, Role.parts]
    refine (hsafe.contained_eval hslots he (hresolved e he) (hfits.parts e he)).bind fun v hv => ?_
    exact ⟨numeric_put hslots hv i, hprior, hlikelihood, hjacobian⟩
  | observed value dist =>
    have hvalue : (Value.number (value.map Scalar.ofDouble) : Value α).IsArray [] :=
      Value.isArray_number _
    -- An observed node has a term only where it has a distribution and terms are asked for.
    have hterms : Contained (observedTerms r (g.environment r mode.calls ev.slots) mode
        (.number (value.map Scalar.ofDouble)) dist) fun ts => ∀ t ∈ ts, ∃ y, t = .scalar y := by
      unfold observedTerms
      cases dist with
      | none => simp [Contained, Pure.pure, Except.pure]
      | some law =>
        dsimp only
        split
        · refine (hbind law (by rw [hrole]; rfl)).bind fun d hd => ?_
          exact contained_densityTerms mode hd hvalue
        · simp [Contained, Pure.pure, Except.pure]
    refine hterms.bind fun ts hts => ?_
    refine (contained_addTerms hlikelihood hts).bind fun total htotal => ?_
    exact ⟨numeric_put hslots hvalue.numeric i, hprior, htotal, hjacobian⟩
  | parameter law =>
    obtain ⟨y, hy⟩ := hcoordinate (by rw [hrole]; rfl)
    rw [hy]
    refine (hbind law (by rw [hrole]; rfl)).bind fun d hd => ?_
    refine (contained_locate mode hd y).bind fun p hp => ?_
    refine (contained_addTerms hjacobian hp.2).bind fun jacobian hj => ?_
    refine (contained_densityTerms mode hd hp.1).bind fun ts hts => ?_
    refine (contained_addTerms hprior hts).bind fun prior hp' => ?_
    exact ⟨numeric_put hslots hp.1.numeric i, hp', hlikelihood, hj⟩

end Visits

/-- Every node fits when a run arrives there. -/
def FitsAlong (g : Graph) (r : Registry α) (mode : EvaluationMode) (theta : List α) : Prop :=
  ∀ before i after n ev, g.order = before ++ i :: after → g.nodes[i]? = some n →
    before.foldlM (g.visit r mode theta) Evaluation.start = .ok ev →
    n.role.Fits (g.environment r mode.calls ev.slots)

/-- The density of a graph that was built from a valid model. -/
theorem logDensity_available {m : Model} {bindings : Table String Datum} {r : Registry α}
    {g : Graph} (hm : m.check = .ok ()) (hg : (build m bindings r).collect.1 = .ok g)
    (hr : r.Sound) {transformed : Bool} {calls : CallMode} {theta : List α}
    (htheta : theta.length = g.dimension)
    (hfits : g.FitsAlong r { transformed, calls } theta) :
    (∀ e, g.evaluate r { transformed, calls } theta = .error e → e.isArithmetic = true) ∧
      ∃ x, (g.logDensity r transformed calls theta).collect.1 = .ok (.scalar x) := by
  have hresolved := resolved_of_build hm hg
  have hrun : Contained (g.evaluate r { transformed, calls } theta) Evaluation.IsNumeric := by
    refine Contained.foldlM_of_prefix numeric_start fun before i after ev hsplit hev hnumeric => ?_
    obtain ⟨n, hn, hsafe, -⟩ := safe_of_build hg hsplit
    obtain ⟨hsafe, hcoordinate⟩ := hsafe { transformed, calls } theta ev htheta hev
    exact contained_visit hr hn hsafe hcoordinate (hresolved n (List.mem_of_getElem? hn))
      (hfits before i after n ev hsplit hn hev) hnumeric
  refine ⟨fun e he => hrun.isArithmetic he, ?_⟩
  rw [logDensity_result]
  cases hev : g.evaluate r { transformed, calls } theta with
  | error e =>
    rw [error_bind]
    dsimp only
    rw [if_pos (hrun.isArithmetic hev)]
    exact ⟨_, rfl⟩
  | ok ev =>
    obtain ⟨-, ⟨a, hprior⟩, ⟨b, hlikelihood⟩, ⟨c, hjacobian⟩⟩ := hrun.of_ok hev
    obtain ⟨posterior, p, hposterior, hp⟩ := hprior.exists_add hlikelihood
    obtain ⟨total, x, htotal, hx⟩ := hp.exists_add hjacobian
    have hsum : ev.logDensity = .ok total := by
      unfold Evaluation.logDensity
      rw [hposterior, ok_bind, htotal]
    rw [ok_bind, hsum]
    dsimp only
    rw [hx.toTensor]
    exact ⟨_, rfl⟩

/-! ## A slice in a call -/

/-- The distribution of `x[1]` and `x[2]`. -/
def standardNormal : Dist :=
  { name := .text "dnorm", params := [.literal (.int 0), .literal (.int 1)] }

/-- Three parameters, of which the last one has the sum of the others in its location. -/
def summedModel : Model where
  statements :=
    [.sample [] (.index (.text "x") [.literal (.int 1)]) (.dist standardNormal),
    .sample [] (.index (.text "x") [.literal (.int 2)]) (.dist standardNormal),
    .sample [] (.var (.text "y"))
      (.dist
        { name := .text "dnorm"
          params :=
            [.add (.call (.text "sum")
                [.index (.text "x") [.range (.literal (.int 1)) (.literal (.int 2))]])
              (.literal (.int 1)),
            .literal (.int 1)] })]

/-- The graph of the model. -/
def summedGraph : Graph where
  nodes :=
    [{ id := ⟨"x", [1]⟩, role := .parameter standardNormal, statement := some "x[1] ~ dnorm(0, 1)" },
    { id := ⟨"x", [2]⟩, role := .parameter standardNormal, statement := some "x[2] ~ dnorm(0, 1)" },
    { id := ⟨"y", []⟩
      role := .parameter
        { name := .text "dnorm"
          params :=
            [.add (.call (.text "sum") [.refArray [⟨"x", [1]⟩, ⟨"x", [2]⟩] [2]]) (.literal (.int 1)),
            .literal (.int 1)] }
      parents := [0, 1]
      statement := some "y ~ dnorm(sum(x[1:2]) + 1, 1)" }]
  order := [0, 1, 2]
  parameters := [0, 1, 2]

/-- The model is built without data, as the graph. -/
theorem build_summedModel :
    (build summedModel Table.empty (Registry.builtin : Registry Dual)).collect.1 =
      .ok summedGraph := by
  have hdata : Bindings.flatten Table.empty = .ok ⟨Table.empty, ⟨[]⟩⟩ := rfl
  have hconstants : Folding.constants (Registry.builtin : Registry Dual).foldingFunctions
      summedModel.statements ⟨Table.empty, ⟨[]⟩⟩ = .ok Table.empty := by
    unfold Folding.constants Folding.saturate
    rfl
  rw [build_of_constants hdata hconstants]
  with_unfolding_all rfl

/-- A distribution whose parts fit and are scalars fits. -/
theorem fits_parameter {env : Environment α} {law : Dist}
    (h : ∀ e ∈ law.parts, e.Fits env ∧ ∀ v, e.eval env = .ok v → v.shape = []) :
    (Role.parameter law).Fits env where
  parts e he := (h e he).1
  scalars := by
    rintro _ ⟨⟩ e he
    exact (h e he).2

/-- A literal fits, and it is a scalar. -/
theorem fits_literal (env : Environment α) (n : Int) : (Expr.literal (.int n)).Fits env ∧
    ∀ v, (Expr.literal (.int n)).eval env = .ok v → v.shape = [] := by
  refine ⟨trivial, ?_⟩
  rintro v ⟨⟩
  rfl

/-- The standard normal distribution fits. -/
theorem fits_standardNormal (env : Environment α) : (Role.parameter standardNormal).Fits env := by
  apply fits_parameter
  simp only [standardNormal, Dist.parts, Dist.bounds, Option.toList, List.append_nil,
    List.forall_mem_cons]
  exact ⟨fits_literal env 0, fits_literal env 1, by simp⟩

/-- The model is valid and is built, every node fits when the run at zero arrives there, and so the
density there is a number. -/
theorem logDensity_summedModel :
    ∃ x, summedModel.check = .ok () ∧
      (build summedModel Table.empty (Registry.builtin : Registry Dual)).collect.1 =
        .ok summedGraph ∧
      (summedGraph.logDensity (Registry.builtin : Registry Dual) true .direct
        [Scalar.ofInt 0, Scalar.ofInt 0, Scalar.ofInt 0]).collect.1 = .ok (.scalar x) := by
  have hfits : summedGraph.FitsAlong (Registry.builtin : Registry Dual) {}
      [Scalar.ofInt 0, Scalar.ofInt 0, Scalar.ofInt 0] := by
    intro before i after n ev hsplit hn hev
    rcases before with _ | ⟨b, _ | ⟨c, _ | ⟨d, before⟩⟩⟩
    · cases hsplit
      cases hn
      exact fits_standardNormal _
    · cases hsplit
      cases hn
      exact fits_standardNormal _
    · cases hsplit
      cases hn
      cases hev
      apply fits_parameter
      simp only [Dist.parts, Dist.bounds, Option.toList, List.append_nil, List.forall_mem_cons]
      refine ⟨⟨?_, ?_⟩, fits_literal _ 1, by simp⟩
      · simp only [Expr.Fits, Expr.FitsAll, List.forall_mem_cons]
        refine ⟨⟨⟨⟨?_, ?_, ?_, ?_⟩, trivial⟩, ?_⟩, trivial, ?_⟩
        · simp
        · rintro v ⟨⟩
          rfl
        · rintro v ⟨⟩
          rfl
        · simp
        · -- the sum of an array is a number
          rintro f ⟨⟩ xs ⟨⟩
          exact trivial
        · rintro x y ⟨⟩ ⟨⟩
          exact ⟨[], rfl⟩
      · rintro v ⟨⟩
        rfl
    · simp [summedGraph] at hsplit
  obtain ⟨-, x, hx⟩ := logDensity_available (m := summedModel) rfl build_summedModel
    Registry.sound_builtin rfl hfits
  exact ⟨x, rfl, build_summedModel, hx⟩

/-! ## Slices of different lengths -/

/-- The error of evaluation that a computation fails with. -/
def evalError? {ν : Type} : Except Failure ν → Option EvalError
  | .error (.eval e) => some e
  | _ => none

/-- The error of an evaluation is the one with which a computation ends. -/
theorem evalError?_eq_some {ν : Type} {x : Except Failure ν} {e : EvalError} :
    evalError? x = some e ↔ x = .error (.eval e) := by
  rcases x with (_ | _ | _ | _) | v <;> simp [evalError?]

/-- A parameter, and an observation whose location adds a slice of two entries to one of three. -/
def unevenModel : Model where
  statements :=
    [.sample [] (.var (.text "z")) (.dist standardNormal),
    .sample [] (.var (.text "w"))
      (.dist
        { name := .text "dnorm"
          params :=
            [.add (.index (.text "x") [.range (.literal (.int 1)) (.literal (.int 2))])
              (.index (.text "x") [.range (.literal (.int 1)) (.literal (.int 3))]),
            .literal (.int 1)] })]

/-- Values for `x` and `w`. -/
def unevenData : Table String Datum := ⟨[("x", .list [.int 1, .int 2, .int 3]), ("w", .int 4)]⟩

/-- The values under their identities. -/
def unevenBindings : Bindings :=
  ⟨⟨[(⟨"x", [1]⟩, .int 1), (⟨"x", [2]⟩, .int 2), (⟨"x", [3]⟩, .int 3), (⟨"w", []⟩, .int 4)]⟩,
    ⟨[("x", [3]), ("w", [])]⟩⟩

/-- A model that is built although shapes do not fit: no function is called, but the density at a
vector with one coordinate is neither a number nor an error of the arithmetic. -/
theorem not_available_unevenModel :
    ∃ g, unevenModel.check = .ok () ∧
      (build unevenModel unevenData (Registry.builtin : Registry Dual)).collect.1 = .ok g ∧
      (∀ n ∈ g.nodes, Expr.callsOfAll n.role.parts = []) ∧ g.dimension = 1 ∧
      (g.logDensity (Registry.builtin : Registry Dual) true .direct [Scalar.ofInt 0]).collect.1 =
        .error (.eval .wrongKind) := by
  have hdata : Bindings.flatten unevenData = .ok unevenBindings := rfl
  have hconstants : Folding.constants (Registry.builtin : Registry Dual).foldingFunctions
      unevenModel.statements unevenBindings =
        .ok (unevenBindings.values.map fun n => n.map Scalar.ofDouble) := by
    unfold Folding.constants Folding.saturate
    rfl
  have hruns : ((build unevenModel unevenData
      (Registry.builtin : Registry Dual)).collect.1.toOption.any fun g =>
        decide (∀ n ∈ g.nodes, Expr.callsOfAll n.role.parts = []) &&
          decide (g.dimension = 1) && decide (evalError?
            (g.logDensity (Registry.builtin : Registry Dual) true .direct
              [Scalar.ofInt 0]).collect.1 = some .wrongKind)) = true := by
    rw [build_result]
    unfold Unrolled.make
    simp only [hdata, hconstants, ok_bind]
    decide +kernel
  obtain ⟨g, hg, h⟩ := (Option.any_eq_true _ _).mp hruns
  simp only [Bool.and_eq_true, decide_eq_true_eq] at h
  exact ⟨g, rfl, toOption_eq_some.mp hg, h.1.1, h.1.2, evalError?_eq_some.mp h.2⟩

end Graph

end BayesGraph
