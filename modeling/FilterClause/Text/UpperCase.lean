import FilterClause.Text.CaseTable

/-!
# Upper case

The full upper-case form of a text. It is taken character by character, whatever stands around the
character, and may be longer than the text.
-/

namespace FilterClause.Text

def upperChar (c : Char) : List Char :=
  match caseExpansions.find? fun entry => entry.1 == c.toNat with
  | some (_, expansion) => expansion.map Char.ofNat
  | none =>
    match caseRuns.find? fun run => run.mem c.toNat with
    | some run => [Char.ofNat ((c.toNat : Int) + run.shift).toNat]
    | none => [c]

def upperCase (s : String) : String := String.ofList (s.toList.flatMap upperChar)

end FilterClause.Text
