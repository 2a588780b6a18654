-- Formulas: terms built from the logical connectives. Conjunction and
-- disjunction are flattened as they are built, so a path condition reads as
-- one flat list of conjuncts.
import StateGraph.Term.Basic

namespace StateGraph.Term

/-! ## Labels of the connectives -/

def topLabel : String := "#Top"

def bottomLabel : String := "#Bottom"

def andLabel : String := "#And"

def orLabel : String := "#Or"

def notLabel : String := "#Not"

def equalsLabel : String := "#Equals"

/-! ## Literals and atoms -/

def int (value : Int) : Term := .token (toString value) "Int"

def bool (value : Bool) : Term := .token (if value then "true" else "false") "Bool"

/-- The formula that always holds. -/
def top : Formula := .apply topLabel []

/-- The formula that never holds. -/
def bottom : Formula := .apply bottomLabel []

def isTop (t : Term) : Bool := t == top

def isBottom (t : Term) : Bool := t == bottom

/-- The boolean term `t` holds. -/
def equalsTrue (t : Term) : Formula := .apply equalsLabel [bool true, t]

def geInt (a b : Term) : Term := .apply "_>=Int_" [a, b]

def gtInt (a b : Term) : Term := .apply "_>Int_" [a, b]

def leInt (a b : Term) : Term := .apply "_<=Int_" [a, b]

def ltInt (a b : Term) : Term := .apply "_<Int_" [a, b]

/-! ## Connectives -/

def not (f : Formula) : Formula := .apply notLabel [f]

/-- What a formula adds to a conjunction: a conjunction adds its conjuncts as
they stand, `top` adds nothing, any other formula adds itself. -/
def conjuncts (f : Formula) : List Formula :=
  match f with
  | .apply label args =>
    if label = andLabel then args else if isTop f then [] else [f]
  | _ => [f]

/-- What a formula adds to a disjunction: a disjunction adds its disjuncts as
they stand, `bottom` adds nothing, any other formula adds itself. -/
def disjuncts (f : Formula) : List Formula :=
  match f with
  | .apply label args =>
    if label = orLabel then args else if isBottom f then [] else [f]
  | _ => [f]

/-- A list of formulas under a connective: none is the unit, one stands for
itself. -/
def join (label : String) (unit : Formula) : List Formula → Formula
  | [] => unit
  | [f] => f
  | fs => .apply label fs

def and (fs : List Formula) : Formula := join andLabel top (fs.flatMap conjuncts)

def or (fs : List Formula) : Formula := join orLabel bottom (fs.flatMap disjuncts)

end StateGraph.Term
