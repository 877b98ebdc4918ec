import BayesGraph.Expr

/-!
# Syntax inside error texts

Error texts show malformed parts of a model in full: each constructor by its name, with its fields
in order. The layout differs from the one in which models are written, which malformed parts may
not have.
-/

set_option autoImplicit false

namespace BayesGraph

namespace Expr

/-- A constructor with named fields. -/
def labelled (name : String) (fields : List (String × String)) : String :=
  name ++ "(" ++ ", ".intercalate (fields.map fun f => f.1 ++ "=" ++ f.2) ++ ")"

mutual

/-- The expression as error texts show it. -/
def describe : Expr → String
  | .literal val => labelled "Literal" [("val", val.describe)]
  | .var name => labelled "Var" [("name", name.describe)]
  | .colon => "Colon()"
  | .range start stop => labelled "Range" [("start", describe start), ("stop", describe stop)]
  | .index name indices =>
    labelled "Index" [("name", name.describe), ("indices", Datum.tuple (describeAll indices))]
  | .negate val => labelled "Negate" [("val", describe val)]
  | .add left right => labelled "AddOp" [("left", describe left), ("right", describe right)]
  | .sub left right => labelled "SubOp" [("left", describe left), ("right", describe right)]
  | .mul left right => labelled "MulOp" [("left", describe left), ("right", describe right)]
  | .div num den => labelled "DivOp" [("num", describe num), ("den", describe den)]
  | .pow base exponent =>
    labelled "PowOp" [("base", describe base), ("exponent", describe exponent)]
  | .call func arguments =>
    labelled "Call"
      [("func_name", func.describe), ("arguments", Datum.tuple (describeAll arguments))]
  | .ref id => labelled "Ref" [("var_name", id.describe)]
  | .refArray ids shape =>
    labelled "RefArray"
      [("var_names", Datum.tuple (ids.map Identity.describe)), ("shape", shapeText shape)]
  | .raw object => object.describe
  | .rawList items => "[" ++ ", ".intercalate (describeAll items) ++ "]"

/-- The expressions of a list as error texts show them. -/
def describeAll : List Expr → List String
  | [] => []
  | e :: rest => describe e :: describeAll rest

end

/-- The expression inside running text: a plain text stands for itself. -/
def shown : Expr → String
  | .raw object => object.shown
  | e => e.describe

/-- The name of the outermost constructor, or the kind of a plain object. -/
def kind : Expr → String
  | .literal _ => "Literal"
  | .var _ => "Var"
  | .colon => "Colon"
  | .range _ _ => "Range"
  | .index _ _ => "Index"
  | .negate _ => "Negate"
  | .add _ _ => "AddOp"
  | .sub _ _ => "SubOp"
  | .mul _ _ => "MulOp"
  | .div _ _ => "DivOp"
  | .pow _ _ => "PowOp"
  | .call _ _ => "Call"
  | .ref _ => "Ref"
  | .refArray _ _ => "RefArray"
  | .raw object => object.kind
  | .rawList _ => "list"

/-- Is it a plain object rather than an expression? -/
def isRaw : Expr → Bool
  | .raw _ | .rawList _ => true
  | _ => false

/-- The kind with the place where it is defined. -/
def qualifiedKind (e : Expr) : String :=
  "<class '" ++ (if e.isRaw then "" else "bugsmodel.ir.") ++ e.kind ++ "'>"

end Expr

namespace Dist

/-- A bound as error texts show it. -/
def describeBound : Option Expr → String
  | none => "None"
  | some e => e.describe

/-- The distribution as error texts show it. -/
def describe (d : Dist) : String :=
  Expr.labelled "Dist"
    [("name", d.name.describe), ("params", Datum.tuple (Expr.describeAll d.params)),
      ("lower", describeBound d.lower), ("upper", describeBound d.upper)]

end Dist

/-- The right of a stochastic statement as error texts show it. -/
def Law.describe : Law → String
  | .dist d => d.describe
  | .raw object => object.describe

namespace Stmt

/-- Comments as error texts show them. -/
def describeComment (comment : List String) : String :=
  "[" ++ ", ".intercalate (comment.map Text.quoted) ++ "]"

mutual

/-- The statement as error texts show it. -/
def describe : Stmt → String
  | .sample comment lhs law =>
    Expr.labelled "Sample"
      [("comment", describeComment comment), ("lhs", lhs.describe), ("dist", law.describe)]
  | .assign comment lhs rhs =>
    Expr.labelled "Assign"
      [("comment", describeComment comment), ("lhs", lhs.describe), ("rhs", rhs.describe)]
  | .loop comment var sequence body =>
    Expr.labelled "ForLoop"
      [("comment", describeComment comment), ("var", var.describe),
        ("sequence", sequence.describe), ("body", "[" ++ ", ".intercalate (describeAll body) ++ "]")]
  | .raw object => object.describe

/-- The statements of a list as error texts show them. -/
def describeAll : List Stmt → List String
  | [] => []
  | s :: rest => describe s :: describeAll rest

end

end Stmt

end BayesGraph
