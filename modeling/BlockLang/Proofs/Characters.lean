import BlockLang.Proofs.CText

/-!
# The characters of a text

`AllChars` says of what kind the characters of a text are. Texts are put together from lexemes,
numbers and fixed words, and so are the proofs about their characters.
-/

namespace BlockLang

/-- Every character of the text is of this kind. -/
def AllChars (kind : Char → Prop) (text : String) : Prop := ∀ c ∈ text.toList, kind c

instance (kind : Char → Prop) [DecidablePred kind] (text : String) :
    Decidable (AllChars kind text) :=
  decidable_of_iff (text.toList.all (fun c => decide (kind c)) = true) (by simp [AllChars])

section AllChars
variable {kind : Char → Prop} {a b : String}

theorem allChars_append : AllChars kind (a ++ b) ↔ AllChars kind a ∧ AllChars kind b := by
  rw [AllChars, String.toList_append, List.forall_mem_append]
  rfl

theorem AllChars.append (ha : AllChars kind a) (hb : AllChars kind b) : AllChars kind (a ++ b) :=
  allChars_append.mpr ⟨ha, hb⟩

theorem allChars_join {texts : List String} (h : ∀ text ∈ texts, AllChars kind text) :
    AllChars kind (String.join texts) := by
  intro c hc
  rw [String.toList_join] at hc
  obtain ⟨text, htext, hc⟩ := List.mem_flatMap.mp hc
  exact h text htext c hc

theorem allChars_intercalate {between : String} (hbetween : AllChars kind between)
    {texts : List String} (h : ∀ text ∈ texts, AllChars kind text) :
    AllChars kind (between.intercalate texts) := by
  induction texts with
  | nil => simp [AllChars]
  | cons text texts ih =>
    obtain ⟨htext, htexts⟩ := List.forall_mem_cons.mp h
    cases texts with
    | nil => simpa using htext
    | cons next rest =>
      rw [String.intercalate_cons_cons]
      exact (htext.append hbetween).append (ih htexts)

theorem allChars_ofList {cs : List Char} (h : ∀ c ∈ cs, kind c) :
    AllChars kind (String.ofList cs) := by
  rw [AllChars, String.toList_ofList]
  exact h

end AllChars

/-- Tokens and numbers consist of characters of this kind. -/
structure Admits (kind : Char → Prop) : Prop where
  alphanum : ∀ c : Char, c.isAlphanum = true → kind c
  point : kind '.'
  mark : ∀ m : Mark, kind m.char

namespace Admits
variable {kind : Char → Prop} (h : Admits kind)
include h

theorem digit {c : Char} (hc : c.isDigit = true) : kind c := by
  apply h.alphanum
  simp [Char.isAlphanum, hc]

theorem number (n : Nat) : AllChars kind (toString n) := by
  intro c hc
  exact h.digit (isDigit_of_mem_toString hc)

theorem lexeme {t : Token} (ht : t.WellSpelled) : AllChars kind t.lexeme := by
  intro c hc
  by_cases halnum : c.isAlphanum = true
  · exact h.alphanum c halnum
  by_cases hpoint : c = '.'
  · rw [hpoint]
    exact h.point
  · obtain ⟨m, -, rfl⟩ := C.exists_mark_of_mem ht (by simpa using halnum) hpoint hc
    exact h.mark m

end Admits

end BlockLang
