import BlockLang.Proofs.ScopeHistory
import Mathlib.Data.List.Infix

/-!
# Numbers of the blocks of a subprogram

The counter of blocks is not part of the stack of frames: it goes on when a frame is closed, and
starts again only with a frame that is opened inside the global one. Hence the frames of one
subprogram have numbers of their own, those closed already included, and since a name is declared
once in a frame, the name and the number identify a declaration.
-/

namespace BlockLang

namespace Scopes

/-- Only the global frame is open before the stretch, and another one throughout it. -/
structure Subprogram (before stretch : List ScopeCall) : Prop where
  outside : (after before).depth = 1
  inside : ∀ part, part <:+ stretch → part ≠ [] → 2 ≤ (after (part ++ before)).depth

/-- What the calls of the stretch that open a frame answer, in the order in which they are made. -/
def openings (before : List ScopeCall) : List ScopeCall → List ScopeAnswer
  | [] => []
  | .openFrame :: earlier => openings before earlier ++ [answer (earlier ++ before) .openFrame]
  | _ :: earlier => openings before earlier

theorem nextBlock_insert (s : Scopes) (symbol : Symbol) :
    (s.insert symbol).nextBlock = s.nextBlock := by
  obtain ⟨inner, global, blocks⟩ := s
  cases inner <;> rfl

section Subprogram
variable {before stretch : List ScopeCall}

theorem Subprogram.of_suffix (h : Subprogram before stretch) {part : List ScopeCall}
    (hpart : part <:+ stretch) : Subprogram before part :=
  ⟨h.outside, fun part' hpart' => h.inside part' (hpart'.trans hpart)⟩

theorem Subprogram.inner_ne_nil (h : Subprogram before stretch) (hne : stretch ≠ []) :
    (after (stretch ++ before)).inner ≠ [] := by
  have hdepth := h.inside stretch (List.suffix_refl _) hne
  rw [depth] at hdepth
  exact List.ne_nil_of_length_pos (by omega)

theorem Subprogram.openFrames_eq_nil (h : Subprogram before stretch) : openFrames before = [] := by
  have houtside := h.outside
  have hlength := (reflects_after before).inner.length_eq
  rw [depth] at houtside
  exact List.length_eq_zero_iff.mp (by omega)

/-! ### The counter -/

/-- The next frame has as its number how many the subprogram has opened. -/
theorem nextBlock_eq_count (h : Subprogram before stretch) :
    (after (stretch ++ before)).nextBlock = stretch.count .openFrame := by
  induction stretch with
  | nil =>
    have houtside := h.outside
    rw [depth] at houtside
    have hnil : (after before).inner = [] := List.length_eq_zero_iff.mp (by omega)
    exact if_pos hnil
  | cons c earlier ih =>
    have hearlier := ih (h.of_suffix (List.suffix_cons ..))
    have hinner := h.inner_ne_nil (List.cons_ne_nil _ _)
    have hacts := acts_after c (earlier ++ before)
    rw [List.cons_append] at hinner ⊢
    generalize after (earlier ++ before) = s at hearlier hacts
    generalize answer (earlier ++ before) c = a at hacts
    generalize after (c :: (earlier ++ before)) = s' at hinner hacts ⊢
    cases hacts with
    | opens =>
      rw [List.count_cons_self, ← hearlier]
      exact if_neg hinner
    | closes =>
      -- A frame is left, so that there was one before, and the counter goes on.
      have hs : s.inner ≠ [] := fun hnil => hinner (congrArg List.tail hnil)
      rw [List.count_cons_of_ne (by decide), ← hearlier, nextBlock, nextBlock, if_neg hinner,
        if_neg hs]
      rfl
    | keeps stays symbol? => rw [List.count_cons_of_ne stays.1, hearlier]
    | declares stays symbol? fresh block =>
      rw [List.count_cons_of_ne stays.1, nextBlock_insert, hearlier]

theorem openings_eq_range (h : Subprogram before stretch) :
    openings before stretch = (List.range (stretch.count .openFrame)).map .opened := by
  induction stretch with
  | nil => rfl
  | cons c earlier ih =>
    have hsuffix := h.of_suffix (List.suffix_cons c earlier)
    have hearlier := ih hsuffix
    cases c with
    | openFrame =>
      have hopened : answer (earlier ++ before) .openFrame = .opened (earlier.count .openFrame) :=
        congrArg ScopeAnswer.opened (nextBlock_eq_count hsuffix)
      rw [openings, hearlier, hopened, List.count_cons_self, List.range_succ, List.map_append]
      rfl
    | _ =>
      rw [List.count_cons_of_ne (by simp)]
      exact hearlier

/-! ### The number of an open frame -/

/-- The call that opened the frame answered with this number. -/
def OpenedAs (history : List ScopeCall) (id block : Nat) : Prop :=
  ∃ earlier, .openFrame :: earlier <:+ history ∧ earlier.length = id ∧
    answer earlier .openFrame = .opened block

theorem OpenedAs.cons {history : List ScopeCall} {id block : Nat} (h : OpenedAs history id block)
    (c : ScopeCall) : OpenedAs (c :: history) id block := by
  obtain ⟨earlier, hsuffix, hopened⟩ := h
  exact ⟨earlier, hsuffix.trans (List.suffix_cons ..), hopened⟩

theorem openedAs_path (history : List ScopeCall) :
    List.Forall₂ (OpenedAs history) (openFrames history) (after history).path := by
  induction history with
  | nil => exact .nil
  | cons c before ih =>
    have hold := ih.imp fun id block hopened => hopened.cons c
    have hacts := acts_after c before
    generalize ha : answer before c = a at hacts
    generalize after (c :: before) = s' at hacts ⊢
    cases hacts with
    | opens => exact .cons ⟨before, List.suffix_refl _, rfl, ha⟩ hold
    | closes =>
      have htail := List.forall₂_drop 1 hold
      rw [List.drop_one, List.drop_one] at htail
      rw [path, closeFrame, List.map_tail]
      exact htail
    | keeps stays symbol? => rwa [openFrames_of_stays stays]
    | declares stays symbol? fresh block => rwa [openFrames_of_stays stays, path_insert]

theorem length_le_of_mem_openFrames (hbefore : openFrames before = []) {id : Nat}
    (h : id ∈ openFrames (stretch ++ before)) : before.length ≤ id := by
  induction stretch with
  | nil =>
    rw [List.nil_append, hbefore] at h
    cases h
  | cons c earlier ih =>
    cases c with
    | openFrame =>
      have h : id ∈ (earlier ++ before).length :: openFrames (earlier ++ before) := h
      rcases List.mem_cons.mp h with rfl | h
      · rw [List.length_append]
        omega
      · exact ih h
    | closeFrame => exact ih (List.mem_of_mem_tail h)
    | _ => exact ih h

/-- A call that comes after all those before the stretch is one of the stretch. -/
theorem exists_of_suffix_append {c : ScopeCall} {earlier : List ScopeCall}
    (h : c :: earlier <:+ stretch ++ before) (hlate : before.length ≤ earlier.length) :
    ∃ part, earlier = part ++ before ∧ c :: part <:+ stretch := by
  have hbefore : before <:+ earlier := List.suffix_of_suffix_length_le (List.suffix_append ..)
    ((List.suffix_cons ..).trans h) hlate
  obtain ⟨part, rfl⟩ := hbefore
  obtain ⟨later, hlater⟩ := h
  have happend : (later ++ c :: part) ++ before = stretch ++ before := by
    rw [List.append_assoc]
    exact hlater
  exact ⟨part, rfl, later, List.append_cancel_right happend⟩

/-- Inside a subprogram the innermost frame is one that the subprogram has opened, and its number is
how many were opened before it. -/
theorem exists_opening (h : Subprogram before stretch) (hne : stretch ≠ []) :
    ∃ earlier, .openFrame :: earlier <:+ stretch ∧
      innermost (stretch ++ before) = some (earlier ++ before).length ∧
      (after (stretch ++ before)).current.block = earlier.count .openFrame := by
  have hinner := h.inner_ne_nil hne
  have hpath := openedAs_path (stretch ++ before)
  have hids : ∀ id ∈ openFrames (stretch ++ before), before.length ≤ id :=
    fun id => length_le_of_mem_openFrames h.openFrames_eq_nil
  rw [innermost, current]
  generalize openFrames (stretch ++ before) = ids at hpath hids ⊢
  rw [path] at hpath
  cases hframes : (after (stretch ++ before)).inner with
  | nil => exact absurd hframes hinner
  | cons f rest =>
    rw [hframes, List.map_cons] at hpath
    obtain ⟨id, ids', ⟨opening, hopening, hid, hanswer⟩, -, rfl⟩ :=
      List.forall₂_cons_right_iff.mp hpath
    have hle := hids id (List.mem_cons_self ..)
    obtain ⟨earlier, rfl, hsuffix⟩ := exists_of_suffix_append hopening (hid ▸ hle)
    refine ⟨earlier, hsuffix, ?_, ?_⟩
    · rw [hid]
      rfl
    · have hnumber := nextBlock_eq_count (h.of_suffix ((List.suffix_cons ..).trans hsuffix))
      exact (ScopeAnswer.opened.inj hanswer).symm.trans hnumber

/-! ### Declarations of a subprogram -/

/-- A declaration is made in a frame that lacks the name and gives the symbol its number. -/
theorem exists_opening_of_declaration (h : Subprogram before stretch) {c : ScopeCall}
    {earlier : List ScopeCall} (hc : c :: earlier <:+ stretch) {symbol : Symbol}
    (hsymbol : (answer (earlier ++ before) c).symbol? = some symbol) :
    ∃ opening, .openFrame :: opening <:+ earlier ∧
      innermost (earlier ++ before) = some (opening ++ before).length ∧
      symbol.block = opening.count .openFrame ∧
      ¬Taken (earlier ++ before) (innermost (earlier ++ before)) symbol.name := by
  have hsuffix := h.of_suffix ((List.suffix_cons ..).trans hc)
  have hdepth := h.inside _ hc (List.cons_ne_nil _ _)
  have hacts := acts_after c (earlier ++ before)
  rw [List.cons_append] at hdepth
  generalize ha : answer (earlier ++ before) c = a at hacts hsymbol
  generalize after (c :: (earlier ++ before)) = s' at hdepth hacts
  cases hacts with
  | opens => cases hsymbol
  | closes => cases hsymbol
  | keeps stays symbol? =>
    rw [symbol?] at hsymbol
    cases hsymbol
  | declares stays symbol? fresh block =>
    rw [symbol?, Option.some.injEq] at hsymbol
    subst hsymbol
    have hne : earlier ≠ [] := by
      rintro rfl
      have houtside := h.outside
      rw [depth_insert, List.nil_append] at hdepth
      omega
    obtain ⟨opening, hopening, hinnermost, hblock⟩ := exists_opening hsuffix hne
    exact ⟨opening, hopening, hinnermost, block.trans hblock, (fresh_after_iff _ _).mp fresh⟩

theorem eq_of_count_eq {o o' : List ScopeCall} (ho : .openFrame :: o <:+ stretch)
    (ho' : .openFrame :: o' <:+ stretch) (h : o.count .openFrame = o'.count .openFrame) :
    o = o' := by
  have hcount : ∀ {u v : List ScopeCall}, .openFrame :: u <:+ v →
      u.count .openFrame < v.count .openFrame := by
    intro u v huv
    have hle := huv.sublist.count_le .openFrame
    rw [List.count_cons_self] at hle
    omega
  rcases Nat.lt_trichotomy o.length o'.length with hlt | heq | hlt
  · have hsuffix := List.suffix_of_suffix_length_le ho ((List.suffix_cons ..).trans ho') hlt
    have hless := hcount hsuffix
    omega
  · have hsuffix := List.suffix_of_suffix_length_le ho ho' (by simp [heq])
    have hsame := hsuffix.eq_of_length (by simp [heq])
    rwa [List.cons.injEq, and_iff_right rfl] at hsame
  · have hsuffix := List.suffix_of_suffix_length_le ho' ((List.suffix_cons ..).trans ho) hlt
    have hless := hcount hsuffix
    omega

/-- The frames of a subprogram are numbered from 0 in the order in which they are opened, and a
declaration is identified by its name and the number of its frame. -/
theorem numbered_subprogram (h : Subprogram before stretch) :
    openings before stretch = (List.range (stretch.count .openFrame)).map .opened ∧
      ∀ c earlier c' earlier' symbol symbol',
        c' :: earlier' <:+ stretch → c :: earlier <:+ earlier' →
        (answer (earlier ++ before) c).symbol? = some symbol →
        (answer (earlier' ++ before) c').symbol? = some symbol' →
        symbol.name ≠ symbol'.name ∨ symbol.block ≠ symbol'.block := by
  refine ⟨openings_eq_range h, ?_⟩
  intro c earlier c' earlier' symbol symbol' hc' hc hsymbol hsymbol'
  rw [← not_and_or]
  rintro ⟨hname, hblock⟩
  have hearlier' := (List.suffix_cons ..).trans hc'
  have hearlier := (List.suffix_cons ..).trans hc
  obtain ⟨o, ho, hinnermost, hnumber, -⟩ :=
    exists_opening_of_declaration h (hc.trans hearlier') hsymbol
  obtain ⟨o', ho', hinnermost', hnumber', hfresh⟩ := exists_opening_of_declaration h hc' hsymbol'
  -- One number, one frame: the earlier declaration was made where the later one is.
  have hsame : o = o' := eq_of_count_eq (ho.trans hearlier) ho' (by omega)
  subst hsame
  obtain ⟨between, hbetween⟩ := hc
  refine hfresh ⟨symbol, ⟨c, earlier ++ before, ⟨between, ?_⟩, ?_, hsymbol⟩, hname⟩
  · rw [← hbetween, List.append_assoc, List.cons_append]
  · rw [hinnermost, hinnermost']

end Subprogram

/-- The real array `a` of an inner frame, which is closed again, and the integer `a` of the next
one; the latest call stands first. -/
def reopening : List ScopeCall :=
  [.declareVariable ⟨⟨4, 9⟩, "a"⟩ .int [], .openFrame, .closeFrame,
    .declareVariable ⟨⟨3, 12⟩, "a"⟩ .real ["2"], .openFrame, .openFrame]

theorem numbered_reopening :
    Subprogram [] reopening ∧ openings [] reopening = [.opened 0, .opened 1, .opened 2] ∧
      ∃ symbol symbol',
        (answer [.openFrame, .openFrame] (.declareVariable ⟨⟨3, 12⟩, "a"⟩ .real ["2"])).symbol? =
          some symbol ∧
        (answer reopening.tail (.declareVariable ⟨⟨4, 9⟩, "a"⟩ .int [])).symbol? = some symbol' ∧
        (symbol.name ≠ symbol'.name ∨ symbol.block ≠ symbol'.block) := by
  have hinside : ∀ part ∈ reopening.tails, part ≠ [] → 2 ≤ (after (part ++ [])).depth := by
    decide +kernel
  have h : Subprogram [] reopening :=
    ⟨rfl, fun part hpart => hinside part ((List.mem_tails part reopening).mpr hpart)⟩
  have hinner : (answer [.openFrame, .openFrame]
      (.declareVariable ⟨⟨3, 12⟩, "a"⟩ .real ["2"])).symbol? = some ⟨"a", .array, .real, 1⟩ := by
    decide +kernel
  have hnext : (answer reopening.tail (.declareVariable ⟨⟨4, 9⟩, "a"⟩ .int [])).symbol? =
      some ⟨"a", .scalar, .int, 2⟩ := by
    decide +kernel
  obtain ⟨hopenings, hdistinct⟩ := numbered_subprogram h
  refine ⟨h, hopenings.trans (by decide +kernel), _, _, hinner, hnext, ?_⟩
  exact hdistinct _ [.openFrame, .openFrame] _ reopening.tail _ _ (List.suffix_refl _)
    ⟨[.openFrame, .closeFrame], rfl⟩ hinner hnext

end Scopes

end BlockLang
