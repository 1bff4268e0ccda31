import Orthotope.Text

/-!
# Tables of cases

A table of cases is checked as a whole: every case is tried, and if some fail, the report gives their
number and their texts. A case that is used up by its check is described beforehand, and its
description is reported in quotes.
-/

namespace Orthotope.CaseTable

/-- The texts of the cases that fail, in order. -/
def failures {α : Type} (cases : List α) (passes : α → Bool) (text : α → String) : List String :=
  (cases.filter fun c => !passes c).map text

/-- Reports failures by their texts, if there are any. -/
def report (failed : List String) : Except String Unit :=
  if failed.isEmpty then .ok () else .error s!"{failed.length} test cases failed: {listed failed}"

/-- Tries every case. -/
def check {α : Type} (cases : List α) (passes : α → Bool) (text : α → String) : Except String Unit :=
  report (failures cases passes text)

/-- Tries every case, describing it beforehand. -/
def checkDescribed {α : Type} (cases : List α) (passes : α → Bool) (text : α → String) :
    Except String Unit :=
  report ((failures cases passes text).map quoted)

/-- The text of a case that consists of one number. -/
def numberCase (x : Int) : String := s!"Case \x7b x: {x} \x7d"

end Orthotope.CaseTable
