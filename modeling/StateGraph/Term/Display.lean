-- How terms read on the page. Variables and tokens read as their text, the
-- connectives and the symbols written `_op_` stand between their operands,
-- and `#Equals` of `true` reads as the term that holds.
import StateGraph.Term.Formula

namespace StateGraph.Term

/-- The operator of a label written `_op_`. -/
def operator? (label : String) : Option String :=
  match label.toList with
  | '_' :: rest =>
    if rest.getLast? = some '_' ∧ 1 < rest.length then some (String.ofList rest.dropLast) else none
  | _ => none

/-- The text of an application, from its arguments and the texts of those. -/
def applied (label : String) (args : List Term) (texts : List String) : String :=
  if label = andLabel ∨ label = orLabel then
    "(" ++ (" " ++ label ++ " ").intercalate texts ++ ")"
  else
    match args, texts with
    | [a, _], [x, y] =>
      if label = equalsLabel then
        if a = bool true then y else x ++ " " ++ equalsLabel ++ " " ++ y
      else
        match operator? label with
        | some op => x ++ " " ++ op ++ " " ++ y
        | none => label ++ "(" ++ x ++ ", " ++ y ++ ")"
    | [], _ => label
    | _, _ => label ++ "(" ++ ", ".intercalate texts ++ ")"

mutual

def display : Term → String
  | .var name => name
  | .token text _ => text
  | .apply label args => applied label args (displayAll args)
  | .sequence items => " ~> ".intercalate (displayAll items)

def displayAll : List Term → List String
  | [] => []
  | t :: ts => display t :: displayAll ts

end

theorem displayAll_eq (ts : List Term) : displayAll ts = ts.map display := by
  induction ts with
  | nil => rfl
  | cons t ts ih => simp [displayAll, ih]

end StateGraph.Term
