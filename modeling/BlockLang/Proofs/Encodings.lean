import BlockLang.Encoding
import BlockLang.Proofs.AsciiListing
import BlockLang.Proofs.CReadBack
import BlockLang.Proofs.Lexing

/-!
# Encodings

Read in Latin-1, the bytes of a text in UTF-8 give the same ASCII characters, and for each other
character some others that are not ASCII either. Such a change is seen by nobody: outside comments a
text that is accepted has ASCII characters only, and a comment ends at two of them
(`Widens.lexes_iff`).
-/

namespace BlockLang

/-! ### Putting other characters for those outside ASCII -/

/-- An ASCII character stands for itself, any other for some that are not ASCII. -/
structure Widens (expand : Char → List Char) : Prop where
  ascii : ∀ c, IsAscii c → expand c = [c]
  other : ∀ c, ¬IsAscii c → expand c ≠ [] ∧ ∀ d ∈ expand c, ¬IsAscii d

theorem beginsNothing_of_not_isAscii {c : Char} (hc : ¬IsAscii c) : BeginsNothing c := by
  refine ⟨?_, ?_, ?_⟩
  · rw [Bool.eq_false_iff]
    intro hblank
    simp only [isBlank, Bool.or_eq_true, decide_eq_true_eq] at hblank
    rcases hblank with ((rfl | rfl) | rfl) | rfl <;> exact hc (by decide)
  · rw [Bool.eq_false_iff]
    exact fun halnum => hc (isAscii_of_isAlphanum halnum)
  · intro m hm
    rw [hm] at hc
    exact hc (admits_isAscii.mark m)

theorem ascii_opening : ∀ c ∈ ['/', '*'], IsAscii c :=
  List.forall_mem_cons.mpr ⟨by decide, List.forall_mem_singleton.mpr (by decide)⟩

theorem ascii_closing : ∀ c ∈ ['*', '/'], IsAscii c :=
  List.forall_mem_cons.mpr ⟨by decide, List.forall_mem_singleton.mpr (by decide)⟩

namespace Widens
variable {expand : Char → List Char} (h : Widens expand)
include h

theorem flatMap_of_ascii {cs : List Char} (hcs : ∀ c ∈ cs, IsAscii c) : cs.flatMap expand = cs := by
  induction cs with
  | nil => rfl
  | cons c cs ih =>
    obtain ⟨hc, hcs⟩ := List.forall_mem_cons.mp hcs
    rw [List.flatMap_cons, h.ascii c hc, ih hcs]
    rfl

theorem flatMap_cons_of_ascii {c : Char} (hc : IsAscii c) (cs : List Char) :
    (c :: cs).flatMap expand = c :: cs.flatMap expand := by
  rw [List.flatMap_cons, h.ascii c hc]
  rfl

theorem exists_other {c : Char} (hc : ¬IsAscii c) (cs : List Char) :
    ∃ d ds, (c :: cs).flatMap expand = d :: ds ∧ ¬IsAscii d := by
  obtain ⟨hne, hother⟩ := h.other c hc
  obtain ⟨d, ds, hds⟩ := List.exists_cons_of_ne_nil hne
  rw [hds] at hother
  refine ⟨d, ds ++ cs.flatMap expand, ?_, hother d (List.mem_cons_self ..)⟩
  rw [List.flatMap_cons, hds]
  rfl

/-- What holds of the first character and of all that are not ASCII still holds of the first. -/
theorem head? {kind : Char → Prop} (hkind : ∀ c, ¬IsAscii c → kind c) {cs : List Char}
    (hcs : ∀ c ∈ cs.head?, kind c) : ∀ c ∈ (cs.flatMap expand).head?, kind c := by
  cases cs with
  | nil => exact hcs
  | cons c cs =>
    by_cases hc : IsAscii c
    · rw [h.flatMap_cons_of_ascii hc]
      exact hcs
    · obtain ⟨d, ds, heq, hd⟩ := h.exists_other hc cs
      rw [heq]
      rintro e ⟨⟩
      exact hkind d hd

theorem endsBefore {t : Token} {cs : List Char} (ht : t.EndsBefore cs) :
    t.EndsBefore (cs.flatMap expand) := by
  have halnum : ∀ c, ¬IsAscii c → c.isAlphanum = false :=
    fun c hc => (beginsNothing_of_not_isAscii hc).alphanum
  have hdigit : ∀ c, ¬IsAscii c → c.isDigit = false :=
    fun c hc => (Bool.or_eq_false_iff.mp (halnum c hc)).2
  cases t with
  | name text => exact h.head? halnum ht
  | keyword k => exact h.head? halnum ht
  | integer lexeme =>
    refine h.head? ?_ ht
    intro c hc
    refine ⟨hdigit c hc, ?_⟩
    rintro rfl
    exact hc (by decide)
  | real lexeme => exact h.head? hdigit ht
  | mark m =>
    intro hm hstar
    have hhead : ∀ c ∈ (cs.flatMap expand).head?, c ≠ '*' := by
      refine h.head? ?_ ?_
      · rintro c hc rfl
        exact hc (by decide)
      · rintro c hc rfl
        exact ht hm hc
    exact hhead '*' hstar rfl
  | endOfText => trivial

theorem unclosed {body : List Char} (hbody : Unclosed body) : Unclosed (body.flatMap expand) := by
  have hskip : ∀ ds cs : List Char, (∀ d ∈ ds, ¬IsAscii d) → Unclosed cs → Unclosed (ds ++ cs) := by
    intro ds cs hds hcs
    induction ds with
    | nil => exact hcs
    | cons d ds ih =>
      obtain ⟨hd, hds⟩ := List.forall_mem_cons.mp hds
      refine unclosed_cons.mpr ⟨?_, ih hds⟩
      rintro ⟨rfl, -⟩
      exact hd (by decide)
  induction body with
  | nil => exact hbody
  | cons c body ih =>
    obtain ⟨hstar, hbody⟩ := unclosed_cons.mp hbody
    by_cases hc : IsAscii c
    · rw [h.flatMap_cons_of_ascii hc, unclosed_cons]
      refine ⟨?_, ih hbody⟩
      rintro ⟨rfl, hslash⟩
      have hhead : ∀ d ∈ (body.flatMap expand).head?, d ≠ '/' := by
        refine h.head? ?_ ?_
        · rintro d hd rfl
          exact hd (by decide)
        · rintro d hd rfl
          exact hstar ⟨rfl, hd⟩
      exact hhead '/' hslash rfl
    · rw [List.flatMap_cons]
      exact hskip _ _ (h.other c hc).2 (ih hbody)

theorem isGap {g : List Char} (hg : IsGap g) : IsGap (g.flatMap expand) := by
  induction hg with
  | nil => exact .nil
  | @blank c g hc hg ih =>
    have hascii : IsAscii c := by
      by_contra hother
      rw [(beginsNothing_of_not_isAscii hother).blank] at hc
      cases hc
    rw [h.flatMap_cons_of_ascii hascii]
    exact .blank hc ih
  | @comment body g hbody hg ih =>
    have hopen : ['/', '*'].flatMap expand = ['/', '*'] := h.flatMap_of_ascii ascii_opening
    have hclose : ['*', '/'].flatMap expand = ['*', '/'] := h.flatMap_of_ascii ascii_closing
    have htext : '/' :: '*' :: (body ++ '*' :: '/' :: g) =
        ['/', '*'] ++ (body ++ (['*', '/'] ++ g)) := rfl
    rw [htext, List.flatMap_append, List.flatMap_append, List.flatMap_append, hopen, hclose]
    exact .comment (h.unclosed hbody) ih

theorem lexeme {t : Token} (ht : t.WellSpelled) :
    t.lexeme.toList.flatMap expand = t.lexeme.toList :=
  h.flatMap_of_ascii (admits_isAscii.lexeme ht)

theorem lexes {cs : List Char} {word : List Token} (hcs : Lexes cs word) :
    Lexes (cs.flatMap expand) word := by
  induction hcs with
  | gap hg => exact .gap (h.isGap hg)
  | token hg ht hends _ ih =>
    rw [List.flatMap_append, List.flatMap_append, h.lexeme ht]
    exact .token (h.isGap hg) ht (h.endsBefore hends) ih

theorem breaks {cs : List Char} (hcs : Breaks cs) : Breaks (cs.flatMap expand) := by
  induction hcs with
  | @badChar g rest c hg hc =>
    rw [List.flatMap_append]
    by_cases hascii : IsAscii c
    · rw [h.flatMap_cons_of_ascii hascii]
      exact .badChar (h.isGap hg) hc
    · obtain ⟨d, ds, heq, hd⟩ := h.exists_other hascii rest
      rw [heq]
      exact .badChar (h.isGap hg) (beginsNothing_of_not_isAscii hd)
  | unclosed hg hbody =>
    rw [List.flatMap_append, h.flatMap_cons_of_ascii (by decide),
      h.flatMap_cons_of_ascii (by decide)]
    exact .unclosed (h.isGap hg) (h.unclosed hbody)
  | pointed hg hds hrest =>
    have hdigits := h.flatMap_of_ascii fun c hc => admits_isAscii.digit (hds.2 c hc)
    rw [List.flatMap_append, List.flatMap_append, hdigits, h.flatMap_cons_of_ascii (by decide)]
    refine .pointed (h.isGap hg) hds (h.head? ?_ hrest)
    intro c hc
    exact (Bool.or_eq_false_iff.mp (beginsNothing_of_not_isAscii hc).alphanum).2
  | token hg ht hends _ ih =>
    rw [List.flatMap_append, List.flatMap_append, h.lexeme ht]
    exact .token (h.isGap hg) ht (h.endsBefore hends) ih

/-- The tokens are the same, if there are any. -/
theorem lexes_iff (cs : List Char) (word : List Token) :
    Lexes (cs.flatMap expand) word ↔ Lexes cs word := by
  refine ⟨?_, h.lexes⟩
  intro hexpanded
  rcases lexes_or_breaks cs with ⟨word', hcs⟩ | hcs
  · rw [hexpanded.unique (h.lexes hcs)]
    exact hcs
  · exact absurd hexpanded ((h.breaks hcs).not_lexes word)

end Widens

/-! ### The bytes of a text -/

theorem toList_loop (bytes : ByteArray) (i : Nat) (acc : List UInt8) :
    ByteArray.toList.loop bytes i acc = acc.reverse ++ bytes.data.toList.drop i := by
  fun_induction ByteArray.toList.loop bytes i acc with
  | case1 i acc hlt ih =>
    have hlength : i < bytes.data.toList.length := by simpa using hlt
    have hget : bytes.get! i = bytes.data.toList[i] := by
      obtain ⟨data⟩ := bytes
      exact (getElem!_pos data i hlt).trans (Array.getElem_toList hlt).symm
    rw [ih, List.drop_eq_getElem_cons hlength, hget]
    simp
  | case2 i acc hge =>
    have hnil : bytes.data.toList.drop i = [] :=
      List.drop_eq_nil_of_le (by simpa using Nat.le_of_not_lt hge)
    rw [hnil, List.append_nil]

theorem toList_bytes (bytes : ByteArray) : bytes.toList = bytes.data.toList := by
  rw [ByteArray.toList, toList_loop]
  rfl

theorem toList_toUTF8 (text : String) :
    text.toUTF8.toList = text.toList.flatMap String.utf8EncodeChar := by
  rw [toList_bytes, String.toUTF8, ← String.utf8Encode_toList, List.utf8Encode,
    List.toList_data_toByteArray]

theorem eq_toUTF8_of_fromUTF8? {bytes : ByteArray} {text : String}
    (h : String.fromUTF8? bytes = some text) : bytes = text.toUTF8 := by
  unfold String.fromUTF8? at h
  split at h
  · cases h
    rfl
  · cases h

theorem fromUTF8?_toUTF8 (text : String) : String.fromUTF8? text.toUTF8 = some text := by
  have hvalid : text.toUTF8.IsValidUTF8 := text.isValidUTF8
  exact dif_pos hvalid

/-- The characters that the bytes of a character in UTF-8 are in Latin-1. -/
def misread (c : Char) : List Char := (String.utf8EncodeChar c).map (fun b => Char.ofNat b.toNat)

theorem toList_latin1 {bytes : ByteArray} {text : String}
    (h : String.fromUTF8? bytes = some text) :
    (latin1 bytes).toList = text.toList.flatMap misread := by
  rw [latin1, String.toList_ofList, eq_toUTF8_of_fromUTF8? h, toList_toUTF8, List.map_flatMap]
  rfl

theorem toNat_ofNat_byte (b : UInt8) : (Char.ofNat b.toNat).toNat = b.toNat := by
  have hvalid : b.toNat.isValidChar := .inl (Nat.lt_trans b.toNat_lt (by decide))
  rw [Char.ofNat, dif_pos hvalid]
  rfl

theorem not_isAscii_byte {n : Nat} (hlow : 128 ≤ n) (hhigh : n < 256) :
    ¬IsAscii (Char.ofNat (UInt8.ofNat n).toNat) := by
  rw [IsAscii, toNat_ofNat_byte, UInt8.toNat_ofNat_of_lt' hhigh]
  omega

theorem widens_misread : Widens misread := by
  constructor
  · intro c hc
    have hone : c.val.toNat ≤ 127 := Nat.le_of_lt_succ hc
    have hbyte : (UInt8.ofNat c.val.toNat).toNat = c.toNat :=
      UInt8.toNat_ofNat_of_lt' (Nat.lt_trans hc (by decide))
    unfold misread String.utf8EncodeChar
    rw [if_pos hone, List.map_singleton, hbyte, Char.ofNat_toNat]
  · intro c hc
    have hmore : ¬c.val.toNat ≤ 127 := fun hone => hc (Nat.lt_succ_of_le hone)
    unfold misread String.utf8EncodeChar
    -- Every byte of a longer sequence has its first bit set.
    rw [if_neg hmore]
    generalize c.val.toNat = v
    constructor
    · split
      · exact List.cons_ne_nil _ _
      · split <;> exact List.cons_ne_nil _ _
    · intro d hd
      obtain ⟨b, hb, rfl⟩ := List.mem_map.mp hd
      split at hb
      · simp only [List.mem_cons, List.not_mem_nil, or_false] at hb
        rcases hb with rfl | rfl <;> exact not_isAscii_byte (by omega) (by omega)
      · split at hb
        · simp only [List.mem_cons, List.not_mem_nil, or_false] at hb
          rcases hb with rfl | rfl | rfl <;> exact not_isAscii_byte (by omega) (by omega)
        · simp only [List.mem_cons, List.not_mem_nil, or_false] at hb
          rcases hb with rfl | rfl | rfl | rfl <;> exact not_isAscii_byte (by omega) (by omega)

/-! ### Comments -/

/-- The character between `a` and `b` stands in a comment: the comment opens after some tokens and
gaps, and is closed behind the character. -/
def InComment (a : List Char) (c : Char) (b : List Char) : Prop :=
  ∃ before word body rest after, a = before ++ '/' :: '*' :: body ∧ Lexes before word ∧
    b = rest ++ '*' :: '/' :: after ∧ Unclosed (body ++ c :: rest)

theorem InComment.append_left {a b : List Char} {c : Char} (h : InComment a c b) {x : List Char}
    (hx : ∀ before word, before <+: a → Lexes before word → ∃ word', Lexes (x ++ before) word') :
    InComment (x ++ a) c b := by
  obtain ⟨before, word, body, rest, after, rfl, hbefore, hb, hbody⟩ := h
  obtain ⟨word', hbefore'⟩ := hx before word (List.prefix_append ..) hbefore
  refine ⟨x ++ before, word', body, rest, after, ?_, hbefore', hb, hbody⟩
  rw [List.append_assoc]

theorem InComment.append_right {a b : List Char} {c : Char} (h : InComment a c b) (x : List Char) :
    InComment a c (b ++ x) := by
  obtain ⟨before, word, body, rest, after, ha, hbefore, rfl, hbody⟩ := h
  refine ⟨before, word, body, rest, after ++ x, ha, hbefore, ?_, hbody⟩
  simp

theorem split_append {x y a b : List Char} {c : Char} (h : x ++ y = a ++ c :: b) :
    (∃ b', x = a ++ c :: b' ∧ b = b' ++ y) ∨ ∃ a', a = x ++ a' ∧ y = a' ++ c :: b := by
  rcases List.append_eq_append_iff.mp h with ⟨a', ha, hy⟩ | ⟨b', hx, hb⟩
  · exact .inr ⟨a', ha, hy⟩
  · cases b' with
    | nil => exact .inr ⟨[], by simp [hx], hb.symm⟩
    | cons d b' =>
      obtain ⟨rfl, rfl⟩ := List.cons_eq_cons.mp hb
      exact .inl ⟨b', hx, rfl⟩

theorem split_ascii {x y a b : List Char} {c : Char} (hx : ∀ d ∈ x, IsAscii d) (hc : ¬IsAscii c)
    (h : x ++ y = a ++ c :: b) : ∃ a', a = x ++ a' ∧ y = a' ++ c :: b := by
  rcases split_append h with ⟨b', hin, -⟩ | hafter
  · exact absurd (hx c (by simp [hin])) hc
  · exact hafter

theorem IsGap.inComment {g : List Char} (hg : IsGap g) {a b : List Char} {c : Char}
    (h : g = a ++ c :: b) (hc : ¬IsAscii c) : InComment a c b := by
  induction hg generalizing a with
  | nil => simp at h
  | @blank d g hd hg ih =>
    cases a with
    | nil =>
      obtain ⟨rfl, -⟩ := List.cons_eq_cons.mp h
      rw [(beginsNothing_of_not_isAscii hc).blank] at hd
      cases hd
    | cons e a =>
      obtain ⟨rfl, htail⟩ := List.cons_eq_cons.mp h
      refine (ih htail).append_left (x := [d]) ?_
      intro before word _ hbefore
      exact ⟨word, hbefore.after_gap (.blank hd .nil)⟩
  | @comment body g hbody hg ih =>
    have htext : ['/', '*'] ++ (body ++ (['*', '/'] ++ g)) = a ++ c :: b := h
    obtain ⟨a, rfl, hbodyText⟩ := split_ascii ascii_opening hc htext
    rcases split_append hbodyText with ⟨rest, rfl, rfl⟩ | ⟨a, rfl, hcloseText⟩
    · exact ⟨[], [], a, rest, g, rfl, .gap .nil, rfl, hbody⟩
    · obtain ⟨a, rfl, hgText⟩ := split_ascii ascii_closing hc hcloseText
      have hcomment : IsGap ('/' :: '*' :: (body ++ '*' :: '/' :: [])) := .comment hbody .nil
      have hassoc : ['/', '*'] ++ (body ++ (['*', '/'] ++ a)) =
          '/' :: '*' :: (body ++ '*' :: '/' :: []) ++ a := by simp
      rw [hassoc]
      refine (ih hgText).append_left ?_
      intro before word _ hbefore
      exact ⟨word, hbefore.after_gap hcomment⟩

/-- In a text that is scanned to its end, what is not ASCII stands in a comment. -/
theorem Lexes.inComment {cs : List Char} {word : List Token} (hcs : Lexes cs word)
    {a b : List Char} {c : Char} (h : cs = a ++ c :: b) (hc : ¬IsAscii c) : InComment a c b := by
  induction hcs generalizing a with
  | gap hg => exact hg.inComment h hc
  | @token g rest t word hg ht hends _ ih =>
    rcases split_append h with ⟨b', hgap, rfl⟩ | ⟨a, rfl, hlexemeText⟩
    · exact (hg.inComment hgap hc).append_right _
    · obtain ⟨a, rfl, rfl⟩ := split_ascii (admits_isAscii.lexeme ht) hc hlexemeText
      rw [← List.append_assoc]
      refine (ih rfl).append_left ?_
      intro before word' hbegins hbefore
      obtain ⟨more, rfl⟩ := hbegins
      rw [List.append_assoc] at hends
      refine ⟨t :: word', ?_⟩
      rw [List.append_assoc]
      exact .token hg ht hends.of_append hbefore

/-! ### Translations -/

theorem compile_ok_congr {a b : String} (h : ∀ word, HasTokens a word ↔ HasTokens b word)
    (target : Target) (listing : String) :
    (compile a target).result = .ok listing ↔ (compile b target).result = .ok listing := by
  simp only [compile_eq_ok_iff, readProgram_eq_ok_iff_hasTokens, h]

/-- Text in UTF-8 is translated alike if it is read in Latin-1. A translation is in ASCII, and
outside comments so is what is translated. -/
theorem compile_encodings :
    (∀ bytes text, String.fromUTF8? bytes = some text → ∀ target listing,
      (compile text target).result = .ok listing ↔
        (compile (latin1 bytes) target).result = .ok listing) ∧
    ∀ source target listing, (compile source target).result = .ok listing →
      AllChars IsAscii listing ∧
      ∀ a c b, source.toList = a ++ c :: b → ¬IsAscii c → InComment a c b := by
  constructor
  · intro bytes text hbytes target listing
    apply compile_ok_congr
    intro word
    rw [hasTokens_iff, hasTokens_iff, toList_latin1 hbytes, widens_misread.lexes_iff]
  · intro source target listing h
    obtain ⟨p, hp, rfl⟩ := (compile_eq_ok_iff source target listing).mp h
    obtain ⟨tree, htokens, -⟩ := (readProgram_eq_ok_iff_hasTokens source p).mp hp
    refine ⟨ascii_list hp target, ?_⟩
    intro a c b hsource hc
    exact ((hasTokens_iff source tree.tokens).mp htokens).inComment hsource hc

/-- A character of two bytes in a comment. -/
def accented : String := "main()\x7b/* \u00e9 */\x7d"

theorem compile_accented :
    ∃ listing, (compile accented .c).result = .ok listing ∧
      (compile (latin1 accented.toUTF8) .c).result = .ok listing ∧ AllChars IsAscii listing ∧
      InComment "main()\x7b/* ".toList '\u00e9' " */\x7d".toList := by
  have h : (compile accented .c).result = .ok "int main(void)\n\x7b\n\x7d\n" :=
    Traced.result_eq_ok_iff.mpr (by decide +kernel)
  obtain ⟨hascii, hcomment⟩ := compile_encodings.2 _ _ _ h
  refine ⟨_, h, (compile_encodings.1 _ _ (fromUTF8?_toUTF8 accented) _ _).mp h, hascii, ?_⟩
  exact hcomment _ _ _ (by decide) (by decide)

end BlockLang
