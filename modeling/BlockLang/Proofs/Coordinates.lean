import BlockLang.Proofs.Rescanning
import Mathlib.Data.List.DropRight
import Mathlib.Data.List.Nodup

/-!
# The coordinates of a character

The position of a character is found by walking over all characters before it. It has a closed form
all the same: the line counts the newlines before the character, and the column counts the
characters since the last of them, both modulo `UInt32.size` (`past_start`). In a text whose
numbers stay below that (`InRange`), and in no other, positions grow from each character to the
next (`pairwise_locate_iff`), so that no two characters stand at the same one. What follows a text
`u` stands where it would stand on its own, moved by the lines of `u` and, on its first line, by
the columns of the last line of `u` (`past_start_append`).
-/

namespace BlockLang

/-- The characters after the last newline, or all of them if there is none. -/
def lastLine (cs : List Char) : List Char := cs.rtakeWhile (fun c => c ≠ '\n')

theorem lastLine_concat (cs : List Char) (c : Char) :
    lastLine (cs ++ [c]) = if c = '\n' then [] else lastLine cs ++ [c] := by
  rw [lastLine, List.rtakeWhile_concat, lastLine]
  by_cases h : c = '\n' <;> simp [h]

theorem lastLine_append (u w : List Char) :
    lastLine (u ++ w) = if '\n' ∈ w then lastLine w else lastLine u ++ w := by
  induction w using List.reverseRecOn with
  | nil => simp
  | append_singleton w c ih =>
    rw [← List.append_assoc, lastLine_concat, lastLine_concat, ih]
    by_cases hc : c = '\n'
    · simp [hc]
    · by_cases hw : '\n' ∈ w
      · simp [hc, hw]
      · simp [hc, hw, Ne.symm hc]

/-- The line of the character that comes after these ones. -/
def lineAfter (cs : List Char) : Nat := 1 + cs.count '\n'

/-- The column of the character that comes after these ones. -/
def columnAfter (cs : List Char) : Nat := 1 + (lastLine cs).length

theorem lineAfter_append (u w : List Char) :
    lineAfter (u ++ w) = lineAfter w + u.count '\n' := by
  rw [lineAfter, lineAfter, List.count_append]
  omega

theorem columnAfter_append (u w : List Char) :
    columnAfter (u ++ w) =
      if '\n' ∈ w then columnAfter w else columnAfter w + (lastLine u).length := by
  rw [columnAfter, columnAfter, lastLine_append]
  by_cases hw : '\n' ∈ w
  · rw [if_pos hw, if_pos hw]
  · have hall : lastLine w = w := by
      have h := lastLine_append [] w
      rwa [List.nil_append, if_neg hw] at h
    rw [if_neg hw, if_neg hw, hall, List.length_append]
    omega

theorem lineAfter_concat (cs : List Char) (c : Char) :
    lineAfter (cs ++ [c]) = if c = '\n' then lineAfter cs + 1 else lineAfter cs := by
  rw [lineAfter, List.count_append, List.count_singleton, lineAfter]
  by_cases hc : c = '\n' <;> simp [hc, Nat.add_assoc]

theorem columnAfter_concat (cs : List Char) (c : Char) :
    columnAfter (cs ++ [c]) = if c = '\n' then 1 else columnAfter cs + 1 := by
  rw [columnAfter, lastLine_concat, columnAfter]
  by_cases hc : c = '\n' <;> simp [hc, Nat.add_assoc]

/-- Further characters lead to a further line, or along the same one. -/
theorem coordinates_append (u : List Char) {w : List Char} (hw : w ≠ []) :
    lineAfter u < lineAfter (u ++ w) ∨
      lineAfter u = lineAfter (u ++ w) ∧ columnAfter u < columnAfter (u ++ w) := by
  by_cases hmem : '\n' ∈ w
  · left
    have hcount : 0 < w.count '\n' := List.count_pos_iff.mpr hmem
    rw [lineAfter, lineAfter, List.count_append]
    omega
  · right
    have hcount : w.count '\n' = 0 := List.count_eq_zero.mpr hmem
    have hlength : 0 < w.length := List.length_pos_iff.mpr hw
    rw [lineAfter, lineAfter, List.count_append, hcount, columnAfter, columnAfter, lastLine_append,
      if_neg hmem, List.length_append]
    omega

/-- The numbers of the lines and columns of a text have 32 bits. -/
def InRange (cs : List Char) : Prop :=
  ∀ i < cs.length, lineAfter (cs.take i) < UInt32.size ∧ columnAfter (cs.take i) < UInt32.size

theorem inRange_of_length_lt {cs : List Char} (h : cs.length < UInt32.size) : InRange cs := by
  intro i hi
  have hlength : (cs.take i).length = i := List.length_take_of_le (Nat.le_of_lt hi)
  have hcount : (cs.take i).count '\n' ≤ (cs.take i).length := List.count_le_length
  have hlast : (lastLine (cs.take i)).length ≤ (cs.take i).length :=
    (List.rtakeWhile_suffix _ _).length_le
  unfold lineAfter columnAfter UInt32.size
  unfold UInt32.size at h
  omega

namespace Position

/-! ### The closed form -/

theorem past_start (cs : List Char) :
    start.past cs = ⟨.ofNat (lineAfter cs), .ofNat (columnAfter cs)⟩ := by
  -- The character before the end decides whether the line or the column grows.
  induction cs using List.reverseRecOn with
  | nil => rfl
  | append_singleton cs c ih =>
    rw [past_append, ih, lineAfter_concat, columnAfter_concat, past, List.foldl_cons,
      List.foldl_nil, after]
    by_cases h : c = '\n'
    · rw [if_pos h, if_pos h, if_pos h, UInt32.ofNat_add]
      rfl
    · rw [if_neg h, if_neg h, if_neg h, UInt32.ofNat_add]
      rfl

theorem getElem?_locate (p : Position) (cs : List Char) (i : Nat) :
    (p.locate cs)[i]? = cs[i]?.map (fun c => ⟨p.past (cs.take i), c⟩) := by
  induction cs generalizing p i with
  | nil => rfl
  | cons c cs ih =>
    cases i with
    | zero => rfl
    | succ i => exact ih (p.after c) i

/-! ### Positions grow -/

/-- The order of positions: by line, and by column in one line. -/
def Before (p q : Position) : Prop := p.line < q.line ∨ p.line = q.line ∧ p.column < q.column

instance (p q : Position) : Decidable (p.Before q) :=
  inferInstanceAs (Decidable (p.line < q.line ∨ p.line = q.line ∧ p.column < q.column))

theorem Before.ne {p q : Position} (h : p.Before q) : p ≠ q := by
  rintro rfl
  rcases h with h | ⟨-, h⟩
  · exact UInt32.lt_irrefl _ h
  · exact UInt32.lt_irrefl _ h

/-- The order of positions in terms of the numbers that they stand for. -/
theorem before_past_iff (u v : List Char) :
    (start.past u).Before (start.past v) ↔
      lineAfter u % UInt32.size < lineAfter v % UInt32.size ∨
        lineAfter u % UInt32.size = lineAfter v % UInt32.size ∧
          columnAfter u % UInt32.size < columnAfter v % UInt32.size := by
  rw [past_start, past_start, Before, UInt32.lt_iff_toNat_lt, UInt32.lt_iff_toNat_lt,
    ← UInt32.toNat_inj]
  simp only [UInt32.toNat_ofNat']

theorem getElem_locate (p : Position) (cs : List Char) {i : Nat} (h : i < (p.locate cs).length) :
    (p.locate cs)[i].position = p.past (cs.take i) := by
  have hsome : (p.locate cs)[i]? = some (p.locate cs)[i] := List.getElem?_eq_getElem h
  rw [getElem?_locate] at hsome
  obtain ⟨c, -, hc⟩ := Option.map_eq_some_iff.mp hsome
  rw [← hc]

theorem length_locate (p : Position) (cs : List Char) : (p.locate cs).length = cs.length := by
  have hplain := congrArg List.length (plainChars_locate p cs)
  rwa [plainChars, List.length_map] at hplain

/-- A number that grows by one at a character and is still below the next one has not wrapped. -/
theorem inRange_step {u : List Char} (c : Char)
    (hu : lineAfter u < UInt32.size ∧ columnAfter u < UInt32.size)
    (h : (start.past u).Before (start.past (u ++ [c]))) :
    lineAfter (u ++ [c]) < UInt32.size ∧ columnAfter (u ++ [c]) < UInt32.size := by
  rw [before_past_iff, lineAfter_concat, columnAfter_concat] at h
  rw [lineAfter_concat, columnAfter_concat]
  unfold UInt32.size at hu h ⊢
  by_cases hc : c = '\n'
  · rw [if_pos hc, if_pos hc] at h ⊢
    omega
  · rw [if_neg hc, if_neg hc] at h ⊢
    omega

theorem pairwise_locate_iff (cs : List Char) :
    (start.locate cs).Pairwise (fun a b => a.position.Before b.position) ↔ InRange cs := by
  rw [List.pairwise_iff_getElem]
  simp only [getElem_locate, length_locate]
  constructor
  · intro h i hi
    induction i with
    | zero => exact (by decide : lineAfter [] < UInt32.size ∧ columnAfter [] < UInt32.size)
    | succ i ih =>
      have hbefore := h i (i + 1) (by omega) hi (by omega)
      rw [List.take_succ_eq_append_getElem (by omega)] at hbefore ⊢
      exact inRange_step _ (ih (by omega)) hbefore
  · intro h i j hi hj hij
    obtain ⟨hline, hcolumn⟩ := h i hi
    obtain ⟨hline', hcolumn'⟩ := h j hj
    have htake : cs.take j = cs.take i ++ (cs.take j).drop i := by
      have hsplit := List.take_append_drop i (cs.take j)
      rw [List.take_take, Nat.min_eq_left (by omega)] at hsplit
      exact hsplit.symm
    have hne : (cs.take j).drop i ≠ [] := by
      rw [← List.length_pos_iff, List.length_drop, List.length_take]
      omega
    have hgrows := coordinates_append (cs.take i) hne
    rw [← htake] at hgrows
    rw [before_past_iff, Nat.mod_eq_of_lt hline, Nat.mod_eq_of_lt hcolumn,
      Nat.mod_eq_of_lt hline', Nat.mod_eq_of_lt hcolumn']
    exact hgrows

/-! ### Texts one after the other -/

/-- Where the character at `q` of a text stands once the text comes after `u`. Only the first line
of the text goes on with a line of `u`. -/
def shiftedBy (u : List Char) (first : Bool) (q : Position) : Position :=
  ⟨q.line + .ofNat (u.count '\n'),
    if first then q.column + .ofNat (lastLine u).length else q.column⟩

theorem past_start_append (u w : List Char) :
    start.past (u ++ w) = (start.past w).shiftedBy u ('\n' ∉ w) := by
  rw [past_start, past_start, lineAfter_append, columnAfter_append, shiftedBy, UInt32.ofNat_add]
  by_cases hw : '\n' ∈ w
  · simp [hw]
  · simp [hw, UInt32.ofNat_add]

theorem locate_append_eq (u v : List Char) :
    start.locate (u ++ v) = start.locate u ++ (start.locate v).mapIdx (fun i c =>
      ⟨c.position.shiftedBy u ('\n' ∉ v.take i), c.value⟩) := by
  rw [locate_append]
  congr 1
  apply List.ext_getElem?
  intro i
  rw [List.getElem?_mapIdx, getElem?_locate, getElem?_locate, ← past_append]
  cases v[i]? with
  | none => rfl
  | some c =>
    rw [past_start_append]
    rfl

end Position

/-- Where the characters of a text stand, if these are its characters with their positions. -/
structure Placed (text : String) (cs : List (Located Char)) : Prop where
  /-- The line counts the newlines before a character, the column the characters since the last,
  and both wrap around. -/
  coordinates : ∀ i : Nat, cs[i]? = text.toList[i]?.map (fun c =>
    ⟨⟨.ofNat (1 + (text.toList.take i).count '\n'),
      .ofNat (1 + (lastLine (text.toList.take i)).length)⟩, c⟩)
  /-- Positions grow along a text exactly if none of its numbers is too great for a position. -/
  increasing : cs.Pairwise (fun a b => a.position.Before b.position) ↔ InRange text.toList
  /-- In such a text the numbers are the line and the column themselves. -/
  exact : InRange text.toList → ∀ (i : Nat) (c : Located Char), cs[i]? = some c →
    c.position.line.toNat = 1 + (text.toList.take i).count '\n' ∧
      c.position.column.toNat = 1 + (lastLine (text.toList.take i)).length
  /-- No two characters of it share a position. -/
  unique : InRange text.toList → (cs.map Located.position).Nodup
  /-- Where a text is cut in two, the second part is shifted by the first. -/
  divided : ∀ u v : String, text = u ++ v → cs = locatedChars u ++
    (locatedChars v).mapIdx (fun i c =>
      ⟨c.position.shiftedBy u.toList ('\n' ∉ v.toList.take i), c.value⟩)

end BlockLang
