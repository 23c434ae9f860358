import MicaCore.Data.Except
import MicaCore.Data.Text

namespace MicaCore.Deploy

open Data

/-- The largest integer that every reader of a contract can hold. -/
def maxInteger : ℕ := 9007199254740991

def hexDigit (c : Char) : Bool := ('0' ≤ c && c ≤ '9') || ('a' ≤ c && c ≤ 'f')

def isId (s : Text) : Bool := s.length == 64 && s.all hexDigit

def trialCounters : List Text := [['3'], ['2', '-', '1'], ['1', '-', '2'], ['0', '-', '3']]

def entryName (id : Text) : Text := ['m', 'i', 'c', 'a', '-'] ++ id ++ ['.', 'c', 'o', 'n', 'f']

def selectedEntry (entry : Text) : Except String Text := do
  let stem ← orError "invalid deployment entry" <|
    (stripPrefix ['m', 'i', 'c', 'a', '-'] entry).bind (stripSuffix ['.', 'c', 'o', 'n', 'f'])
  let (id, counter) := match splitOnce '+' stem with
    | none => (stem, none)
    | some (id, count) => (id, some count)
  ensure (id.length == 64 && id.all hexDigit) "invalid deployment ID"
  ensure (counter.all fun count ↦ trialCounters.contains count)
    "invalid deployment trial counter"
  pure id

def validId (id : Text) : Except String Unit := do
  let selected ← selectedEntry (entryName id)
  ensure (selected == id) "invalid ID"

theorem selectedEntry_entryName (id : Text) :
    selectedEntry (entryName id) = (do
      let (id, counter) := match splitOnce '+' id with
        | none => (id, none)
        | some (id, count) => (id, some count)
      ensure (id.length == 64 && id.all hexDigit) "invalid deployment ID"
      ensure (counter.all fun count ↦ trialCounters.contains count)
        "invalid deployment trial counter"
      pure id) := by
  have hstem : (stripPrefix ['m', 'i', 'c', 'a', '-'] (entryName id)).bind
      (stripSuffix ['.', 'c', 'o', 'n', 'f']) = some id := by
    rw [entryName, List.append_assoc, stripPrefix_append]
    exact stripSuffix_append _ _
  unfold selectedEntry
  rw [hstem]
  rfl

theorem validId_eq_ok {id : Text} {u : Unit} : validId id = .ok u ↔ isId id = true := by
  unfold validId
  rw [selectedEntry_entryName]
  cases hs : splitOnce '+' id with
  | none => simp [isId]
  | some ab =>
    obtain ⟨a, b⟩ := ab
    have hid := splitOnce_eq_some hs
    have hplus : ¬ isId id = true := by
      intro h
      have hall := (Bool.and_eq_true_iff.1 h).2
      rw [hid, List.all_eq_true] at hall
      exact absurd (hall '+' (by simp)) (by decide)
    have hne : a ≠ id := by
      intro h
      simpa [h] using congrArg List.length hid
    simp [hplus, hne]

end MicaCore.Deploy
