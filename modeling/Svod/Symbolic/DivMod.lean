/-
  Svod.Symbolic.DivMod

  Folding of floor division and floor modulo (`symbolic/divmod.rs`), for scalar
  expressions.

  Every function here only builds a candidate; `exactIntegerRewrite` is the
  proof its caller asks for.  `nest_by_factor` folds the quotient by a smaller
  divisor, so the divisor bounds the depth of the recursion.
-/

import Svod.Symbolic.Exact
import Svod.Symbolic.Factor

namespace Svod.Symbolic

open Svod.Ir Svod.Lib Svod.Symbolic.Expr

/-- `i64::try_from` an `i128`. -/
def toI64 (x : ℤ) : Option ℤ := RangeEval.checkedI64 x

/-- `non_negative`. -/
def nonNegative (e : Expr) : Option Unit :=
  match e.intRange with
  | some (lo, _) => if lo ≥ 0 then some () else none
  | none => none

section

-- products of operands of different types, hash map orders, and the sizes of graphs
variable (mixed : ArithOp → Expr → Expr → Option Expr) (order : List Expr → List Expr)
  (nodeCount : Expr → ℕ)

/-! ## Sums -/

/-- `scaled`. -/
def scaled (term : Expr) (coefficient : ℤ) : Option Expr :=
  if coefficient = 0 then some (term.constLike 0)
  else if coefficient = 1 then some term
  else tryMul mixed term (term.constLike coefficient)

/-- `sum.try_add(term)` over the terms. -/
def addAll (sum : Expr) : List Expr → Option Expr
  | [] => some sum
  | term :: rest => do
    let next ← tryAdd mixed sum term
    addAll next rest

/-- `try_uop_sum`. -/
def tryUopSum (terms : List Expr) (template : Expr) : Option Expr :=
  match terms with
  | [] => some (template.constLike 0)
  | term :: rest => addAll mixed term rest

/-- `offset_by`. -/
def offsetBy (value : Expr) (offset : ℤ) : Option Expr :=
  if offset = 0 then some value else tryAdd mixed value (value.constLike offset)

/-- `binary`, of the two divisions. -/
def division (isMod : Bool) (lhs rhs : Expr) : Option Expr :=
  if isMod then tryMod mixed lhs rhs else tryDiv mixed lhs rhs

/-- The terms of a scaled sum whose coefficient is not zero. -/
def scaledTerms (parts : List (Expr × ℤ)) : Option (List Expr) :=
  (parts.filter fun p => p.2 ≠ 0).mapM fun p => scaled mixed p.1 p.2

/-- The constant term of a sum, left out when it is zero. -/
def constTerm (template : Expr) (v : ℤ) : List Expr := if v = 0 then [] else [template.constLike v]

/-! ## `fold_divmod_congruence` -/

/-- A term divided by its numeric factor. -/
def factored (term : Expr) : Option (Expr × ℤ) :=
  let factor := term.constFactor
  if factor = 0 then none else (term.divides mixed factor).map fun base => (base, factor)

/-- The remainders tried for a factor. -/
def remainderChoices (c factor : ℤ) (lone : Bool) : Option (List ℤ) := do
  let positive ← toI64 (factor % c)
  let negative ← RangeEval.checkedI64 (positive - c)
  if RangeEval.checkedI64 (positive * 2) = some c ∨ lone = true then some [positive, negative]
  else if |negative| < |positive| then some [negative]
  else some [positive]

/-- `itertools.product`: the last choice varies fastest. -/
def product : List (List ℤ) → List (List ℤ)
  | [] => [[]]
  | choice :: rest => choice.flatMap fun r => (product rest).map fun rs => r :: rs

/-- The remainder sum of one combination. -/
def remainderSum (x : Expr) (c : ℤ) (decomposition : List (Expr × ℤ)) (remainders : List ℤ)
    (constant : ℤ) : Option Expr := do
  let terms ← scaledTerms mixed (List.zipWith (fun p r => (p.1, r)) decomposition remainders)
  tryUopSum mixed (terms ++ constTerm x (constant % c)) x

/-- The quotient bucket that the sound range of the remainder sum stays in. -/
def quotientBucket (remainder : Expr) (c : ℤ) : Option ℤ :=
  match remainder.intRange with
  | some (remMin, remMax) => if remMin / c = remMax / c then some (remMin / c) else none
  | none => none

/-- The `//` half of `congruence_candidate`. -/
def quotientSum (x : Expr) (c : ℤ) (decomposition : List (Expr × ℤ)) (remainders : List ℤ)
    (constant bucket : ℤ) : Option Expr := do
  let coefficients ← (List.zip decomposition remainders).mapM fun p =>
    (toI64 ((p.1.2 - p.2).tdiv c)).map fun coefficient => (p.1.1, coefficient)
  let terms ← scaledTerms mixed coefficients
  let constantQuotient ← toI64 ((constant - constant % c + bucket * c).tdiv c)
  tryUopSum mixed (terms ++ constTerm x constantQuotient) x

/-- `congruence_candidate`. -/
def congruenceCandidate (x : Expr) (c : ℤ) (decomposition : List (Expr × ℤ))
    (remainders : List ℤ) (constant : ℤ) (isMod : Bool) : Option Expr := do
  let remainder ← remainderSum mixed x c decomposition remainders constant
  let bucket ← quotientBucket remainder c
  if isMod then
    if bucket * c = 0 then some remainder
    else do
      let offset ← toI64 (bucket * c)
      trySub mixed remainder (x.constLike offset)
  else quotientSum mixed x c decomposition remainders constant bucket

/-- The terms of the numerator and the remainders tried for them. -/
def congruenceSearch (x : Expr) (c : ℤ) : Option (List (Expr × ℤ) × List (List ℤ) × ℤ) :=
  let (withoutConst, constant) := x.popConst .add
  match constant with
  | .int constant => do
    let decomposition ← (withoutConst.splitUop .add).mapM (factored mixed)
    let choices ← decomposition.mapM fun p =>
      remainderChoices c p.2 (decide (decomposition.length = 1))
    if (choices.map List.length).prod < 2 ^ 64 then some (decomposition, product choices, constant)
    else none
  | _ => none

/-- `fold_divmod_congruence`, for a positive constant divisor. -/
def foldDivmodCongruence (x : Expr) (c : ℤ) (isMod : Bool) : Option Expr := do
  let (decomposition, combinations, constant) ← congruenceSearch mixed x c
  combinations.findSome? fun remainders =>
    congruenceCandidate mixed x c decomposition remainders constant isMod

/-! ## Rules for a constant divisor -/

/-- `nested_div`: `(a % (k*c)) // c` is `(a // c) % k`, for `k > 0`. -/
def nestedDiv (x y : Expr) (c : ℤ) : Option (Option Expr) :=
  match x with
  | binary .floorMod inner modulus _ => do
    let k ← modulus.divides mixed c
    let (kMin, _) ← k.intRange
    if kMin > 0 then
      some do
        let quotient ← tryDiv mixed inner y
        tryMod mixed quotient k
    else none
  | _ => none

/-- A term without the modulus that a modulus by `c` makes superfluous. -/
def stripMod (c : ℤ) (term : Expr) : Expr :=
  match term with
  | binary .floorMod inner modulus _ => if (modulus.divides mixed c).isSome then inner else term
  | _ => term

/-- `remove_nested_mod`: `(a % (k*c) + b) % c` is `(a + b) % c`. -/
def removeNestedMod (x y : Expr) (c constant : ℤ) (terms : List Expr) : Option (Option Expr) :=
  let stripped := terms.map (stripMod mixed c)
  if stripped = terms then none
  else
    some do
      let sum ← tryUopSum mixed stripped x
      let sum ← if constant = 0 then some sum else tryAdd mixed sum (x.constLike constant)
      tryMod mixed sum y

/-- `gcd_with_remainder`: the common divisor of the coefficients is taken out of both sides. -/
def gcdWithRemainder (x peeled : Expr) (c constant : ℤ) (factors : List ℤ) (isMod : Bool) :
    Option (Option Expr) :=
  let g := factors.foldl gcd c
  if g > 1 then
    match peeled.divides mixed g with
    | none => none
    | some reduced =>
      let shift := constant / g % (c / g)
      match if shift = 0 then some reduced else tryAdd mixed reduced (x.constLike shift) with
      | none => some none
      | some reduced =>
        match reduced.intRange with
        | some (lo, _) =>
          if lo ≥ 0 then
            let inner := x.constLike (c / g)
            some <|
              if isMod then do
                let rest ← tryMod mixed reduced inner
                let scaledUp ← tryMul mixed rest (x.constLike g)
                offsetBy mixed scaledUp (constant % g)
              else do
                let quotient ← tryDiv mixed reduced inner
                offsetBy mixed quotient (constant / c)
          else none
        | none => none
  else none

/-- The divisors `nest_by_factor` tries, sorted and without repetitions. -/
def nestDivisors (c : ℤ) (terms : List Expr) (factors : List ℤ) : List ℤ :=
  ((((List.zip terms factors).filter fun p =>
      (match p.1 with
        | .const _ => false
        | _ => true)
      && decide (2 ≤ |p.2| ∧ |p.2| < c) && decide (c % |p.2| = 0)).map
        fun p => |p.2|).mergeSort (· ≤ ·)).dedup

/-- What `nest_by_factor` does with the quotient by one divisor: `some none` gives the whole rule
up, `none` goes on with the next divisor. -/
def nestCandidate (x nested : Expr) (c divisor constant xMin : ℤ) (bases : List Expr)
    (factors : List ℤ) (isMod : Bool) : Option (Option Expr) :=
  let divisorUop := x.constLike divisor
  let outer := x.constLike (c / divisor)
  if isMod then
    if xMin < 0 then none
    else
      match nested.intRange with
      | some (lo, _) =>
        if lo ≥ 0 then
          match scaledTerms mixed (List.zipWith (fun b f => (b, f % divisor)) bases factors) with
          | none => some none
          | some low =>
            let low := low ++ constTerm x (constant % divisor)
            match tryUopSum mixed low x with
            | none => some none
            | some digit =>
              match digit.intRange with
              | some (mn, mx) =>
                if mn ≥ 0 ∧ mx < divisor then
                  match (tryMod mixed nested outer).bind fun rest => tryMul mixed rest divisorUop with
                  | none => none
                  | some high =>
                    if low.isEmpty then some (some high) else
                      match tryAdd mixed high digit with
                      | none => some none
                      | some candidate => some (some candidate)
                else none
              | none => none
        else none
      | none => none
  else (tryDiv mixed nested outer).map some

/-- The loop over the divisors keeps the first candidate of the least size. -/
def nestBest (fold : Expr → Expr → Option Expr) (x : Expr) (c constant xMin : ℤ)
    (bases : List Expr) (factors : List ℤ) (isMod : Bool) (best : Option Expr) :
    List ℤ → Option Expr
  | [] => best
  | divisor :: rest =>
    match fold x (x.constLike divisor) with
    | none => nestBest fold x c constant xMin bases factors isMod best rest
    | some nested =>
      match nestCandidate mixed x nested c divisor constant xMin bases factors isMod with
      | none => nestBest fold x c constant xMin bases factors isMod best rest
      | some none => none
      | some (some candidate) =>
        let better := match best with
          | none => true
          | some b => nodeCount candidate < nodeCount b
        nestBest fold x c constant xMin bases factors isMod
          (if better then some candidate else best) rest

/-- `const_denominator_rules`; `fold` is the fold of a quotient by a smaller divisor. -/
def constDenominatorRules (fold : Expr → Expr → Option Expr) (isMod : Bool) (x y peeled : Expr)
    (constant : ℤ) (terms : List Expr) : Option Expr :=
  match y.constInt with
  | none => none
  | some c =>
    if c > 0 then
      match if isMod then none else nestedDiv mixed x y c with
      | some result => result
      | none =>
        match if isMod then removeNestedMod mixed x y c constant terms else none with
        | some result => result
        | none =>
          match foldDivmodCongruence mixed x c isMod with
          | some folded => some folded
          | none => do
            let factors := terms.map Expr.constFactor
            let bases ← (List.zip terms factors).mapM fun p => p.1.divides mixed p.2
            match gcdWithRemainder mixed x peeled c constant factors isMod with
            | some result => result
            | none => do
              let (xMin, _) ← x.intRange
              nestBest mixed nodeCount fold x c constant xMin bases factors isMod none
                (nestDivisors c terms factors)
    else none

/-! ## Rules for any divisor -/

/-- One term of `factor_remainder`: what it adds to the quotient and to the remainder. -/
def factorTerm (x y : Expr) (divisor : Option ℤ) (isMod : Bool) (term : Expr) :
    Option (Option Expr × Option Expr) :=
  match term.divideExact mixed order y with
  | some exact => some (some exact, none)
  | none =>
    let factor := term.constFactor
    match divisor.bind fun divisor =>
        if factor % divisor ≠ factor then
          (term.divides mixed factor).map fun base => (base, factor % divisor, factor / divisor)
        else none with
    | some (base, residue, carry) => do
      let low ← scaled mixed base residue
      let high ← if isMod then some (x.constLike 0) else scaled mixed base carry
      some (some high, some low)
    | none => some (none, some term)

/-- `factor_remainder`: `(y*a + b) op y`, where neither side is negative. -/
def factorRemainder (isMod : Bool) (x y : Expr) (terms : List Expr) : Option Expr := do
  nonNegative x
  nonNegative y
  let parts ← terms.mapM (factorTerm mixed order x y y.constInt isMod)
  let quotient := parts.filterMap Prod.fst
  let remainder := parts.filterMap Prod.snd
  if quotient.isEmpty then none
  else do
    let newX ← tryUopSum mixed remainder x
    nonNegative newX
    let folded ← division mixed isMod newX y
    if isMod then some folded
    else do
      let sum ← tryUopSum mixed quotient x
      tryAdd mixed folded sum

/-- `variable_denominator_rules`. -/
def variableDenominatorRules (isMod : Bool) (x y : Expr) : Option Expr :=
  match x.splitUop .add with
  | [] => none
  | first :: rest => do
    let divisorGcd ← symbolicGcd mixed order first (rest ++ [y])
    if divisorGcd.constInt ≠ some 1 then do
      let lhs ← x.divideExact mixed order divisorGcd
      let rhs ← y.divideExact mixed order divisorGcd
      let folded ← division mixed isMod lhs rhs
      if isMod then tryMul mixed folded divisorGcd else some folded
    else factorRemainder mixed order isMod x y (first :: rest)

/-! ## `fold_divmod_general` -/

/-- `cancel_divmod`: the quotient lies in a single bucket.  `some none` gives the fold up. -/
def cancelDivmod (isMod : Bool) (x y : Expr) : Option (Option Expr) :=
  match (tryDiv mixed x y).bind Expr.intRange with
  | none => some none
  | some (quotientMin, quotientMax) =>
    if quotientMin = quotientMax then
      some <|
        if isMod then (scaled mixed y quotientMin).bind fun product => trySub mixed x product
        else some (x.constLike quotientMin)
    else none

/-- A PARAM that is a known multiple of a constant divisor is irreducible. -/
def paramMultiple (isMod : Bool) (x y : Expr) : Option (Option Expr) :=
  match x with
  | .leaf l => do
    let multipleOf ← l.multipleOf.bind fun m => toI64 m
    let c ← y.constInt
    if c ≠ 0 ∧ checkedRem multipleOf c = some 0 then
      some (if isMod then some (x.constLike 0) else none)
    else none
  | _ => none

/-- `fold_divmod_general`, at most `depth` nested quotients deep. -/
def foldDivmodDepth : ℕ → Bool → Expr → Expr → Option Expr
  | 0, _, _, _ => none
  | depth + 1, isMod, x, y => do
    let (yMin, yMax) ← y.intRange
    if yMin = 0 ∧ yMax = 0 then none
    else
      match cancelDivmod mixed isMod x y with
      | some result => result
      | none =>
        match paramMultiple isMod x y with
        | some result => result
        | none =>
          match x.popConst .add with
          | (peeled, .int constant) =>
            match constDenominatorRules mixed nodeCount (foldDivmodDepth depth false) isMod x y
                peeled constant (peeled.splitUop .add) with
            | some result => some result
            | none => variableDenominatorRules mixed order isMod x y
          | _ => none

/-- `fold_divmod_general`. -/
def foldDivmodGeneral (isMod : Bool) (x y : Expr) : Option Expr :=
  foldDivmodDepth mixed order nodeCount ((y.constInt.getD 0).toNat + 1) isMod x y

end

end Svod.Symbolic
