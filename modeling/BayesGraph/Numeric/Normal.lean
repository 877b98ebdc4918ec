import BayesGraph.Numeric.Gamma

/-!
# The standard normal distribution

The distribution function, its logarithm with an asymptotic series in the lower tail, and its
inverse. The error functions behind them are quotients of polynomials.
-/

set_option autoImplicit false

namespace BayesGraph.Numeric

/-- The error function for arguments of magnitude at most one. -/
def errorCentral (x : Float) : Float :=
  let z := x * x
  x * polynomial [9.60497373987051638749, 9.00260197203842689217e1, 2.23200534594684319226e3,
      7.00332514112805075473e3, 5.55923013010394962768e4] z
    / monic [3.35617141647503099647e1, 5.21357949780152679795e2, 4.59432382970980127987e3,
      2.26290000613890934246e4, 4.92673942608635921086e4] z

/-- From this exponent up the tail of the error function counts as zero. -/
def tailLimit : Float := 7.09782712893383996843e2

/-- One minus the error function for arguments from one up. -/
def errorTail (x : Float) : Float :=
  let ratio :=
    if x < 8 then
      polynomial [2.46196981473530512524e-10, 5.64189564831068821977e-1, 7.46321056442269912687,
          4.86371970985681366614e1, 1.96520832956077098242e2, 5.26445194995477358631e2,
          9.34528527171957607540e2, 1.02755188689515710272e3, 5.57535335369399327526e2] x
        / monic [1.32281951154744992508e1, 8.67072140885989742329e1, 3.54937778887819891062e2,
          9.75708501743205489753e2, 1.82390916687909736289e3, 2.24633760818710981792e3,
          1.65666309194161350182e3, 5.57535340817727675546e2] x
    else
      polynomial [5.64189583547755073984e-1, 1.27536670759978104416, 5.01905042251180477414,
          6.16021097993053585195, 7.40974269950448939160, 2.97886665372100240670] x
        / monic [2.26052863220117276590, 9.39603524938001434673, 1.20489539808096656605e1,
          1.70814450747565897222e1, 9.60896809063285878198, 3.36907645100081516050] x
  if x * x > tailLimit then 0 else (-(x * x)).exp * ratio

/-- The distribution function of the standard normal distribution. -/
def normalCdf (x : Float) : Float :=
  let y := x * 0.70710678118654752440
  let z := y.abs
  if z < 1 then 0.5 + 0.5 * errorCentral y
  else if y > 0 then 1 - 0.5 * errorTail z
  else if y < 0 then 0.5 * errorTail z
  else y

/-- `1 - 1/x² + 3/x⁴ - 15/x⁶`, the start of the asymptotic series of the lower tail. -/
def tailSeries (x : Float) : Float :=
  let p := 1 / (x * x)
  1 - p + 3 * p * p - 15 * p * p * p

/-- The logarithm of the distribution function. -/
def logNormalCdf (x : Float) : Float :=
  if x > 8 then -(normalCdf (-x))
  else if x > -20 then (normalCdf x).log
  else -0.5 * x * x - (-x).log - 0.5 * (2 * pi).log + (tailSeries x).log

/-- The density of the standard normal distribution. -/
def normalPdf (x : Float) : Float := (-0.5 * x * x).exp / (2 * pi).sqrt

/-- The quantile of a probability below `exp (-2)`. -/
def lowerQuantile (p : Float) : Float :=
  let x := (-2 * p.log).sqrt
  let z := 1 / x
  let correction :=
    if x < 8 then
      z * polynomial [4.05544892305962419923, 3.15251094599893866154e1, 5.71628192246421288162e1,
          4.40805073893200834700e1, 1.46849561928858024014e1, 2.18663306850790267539,
          -1.40256079171354495875e-1, -3.50424626827848203418e-2, -8.57456785154685413611e-4] z
        / monic [1.57799883256466749731e1, 4.53907635128879210584e1, 4.13172038254672030440e1,
          1.50425385692907503408e1, 2.50464946208309415979, -1.42182922854787788574e-1,
          -3.80806407691578277194e-2, -9.33259480895457427372e-4] z
    else
      z * polynomial [3.23774891776946035970, 6.91522889068984211695, 3.93881025292474443415,
          1.33303460815807542389, 2.01485389549179081538e-1, 1.23716634817820021358e-2,
          3.01581553508235416007e-4, 2.65806974686737550832e-6, 6.23974539184983293730e-9] z
        / monic [6.02427039364742014255, 3.67983563856160859403, 1.37702099489081330271,
          2.16236993594496635890e-1, 1.34204006088543189037e-2, 3.28014464682127739104e-4,
          2.89247864745380683936e-6, 6.79019408009981274425e-9] z
  correction - (x - x.log / x)

/-- The quantile of a probability between `exp (-2)` and `1 - exp (-2)`. -/
def centralQuantile (p : Float) : Float :=
  let y := p - 0.5
  let z := y * y
  (y + y * (z * polynomial [-5.99633501014107895267e1, 9.80010754185999661536e1,
      -5.66762857469070293439e1, 1.39312609387279679503e1, -1.23916583867381258016] z
    / monic [1.95448858338141759834, 4.67627912898881538453, 8.63602421390890590575e1,
      -2.25462687854119370527e2, 2.00260212380060660359e2, -8.20372256168333339912e1,
      1.59056225126211695515e1, -1.18331621121330003142] z))
    * 2.50662827463100050242

/-- The inverse of the distribution function; it has no value outside `[0, 1]`. -/
def normalQuantile (p : Float) : Float :=
  if p == 0 then -infinity
  else if p == 1 then infinity
  else if p > 0 && p < 1 then
    if p > 0.86466471676338730811 then -(lowerQuantile (1 - p))
    else if p > 0.13533528323661269189 then centralQuantile p
    else lowerQuantile p
  else 0.0 / 0.0

end BayesGraph.Numeric
