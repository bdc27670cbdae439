import BlockLang.CommandLine.Directory
import Mathlib.Logic.Function.Basic

/-!
# File stores

A store says what its files hold and which file a path names. An access to a file succeeds as a
whole or leaves the files as they are. A directory in memory is such a store, its files being told
apart by the names that lead to them.
-/

namespace BlockLang.CommandLine

section Except
variable {ε α β : Type}

theorem bind_eq_ok {x : Except ε α} {f : α → Except ε β} {b : β} :
    x >>= f = .ok b ↔ ∃ a, x = .ok a ∧ f a = .ok b := by
  cases x with
  | error e => simp [bind, Except.bind]
  | ok a => simp [bind, Except.bind]

theorem unless_eq_ok {p : Prop} [Decidable p] {e : ε} {never : PUnit → Except ε α}
    {x : Except ε α} {a : α} :
    (if p then throw e >>= never else x) = .ok a ↔ ¬p ∧ x = .ok a := by
  by_cases hp : p
  · simp [hp, bind_eq_ok, throw, throwThe, MonadExceptOf.throw]
  · simp [hp]

end Except

/-- Files of which reading changes none and writing replaces one or none. -/
structure FileStore (σ φ : Type) [DecidableEq φ] where
  access : FileAccess (StateM σ)
  contents : σ → φ → Option ByteArray
  locate : σ → String → Option φ
  read_keeps : ∀ s path, ((access.read path).run s).2 = s
  contents_of_read : ∀ s path bytes, ((access.read path).run s).1 = .ok bytes →
    ∃ file, locate s path = some file ∧ contents s file = some bytes
  failed_write_keeps : ∀ s path bytes e, ((access.write path bytes).run s).1 = .error e →
    ((access.write path bytes).run s).2 = s
  contents_of_write : ∀ s path bytes, ((access.write path bytes).run s).1 = .ok () →
    ∃ file, locate s path = some file ∧
      contents ((access.write path bytes).run s).2 =
        Function.update (contents s) file (some bytes)

namespace Directory

/-! ### Entries below a directory -/

/-- What the file reached by a list of names holds. -/
def contents (d : Directory) (names : List String) : Option ByteArray :=
  match d.entryAt names with
  | some (.file bytes) => some bytes
  | _ => none

theorem contents_nil (d : Directory) : d.contents [] = none := rfl

theorem contents_cons (d : Directory) (name : String) (names : List String) :
    d.contents (name :: names) =
      match d.find? name with
      | some (.folder inner) => inner.contents names
      | some (.file bytes) => if names = [] then some bytes else none
      | none => none := by
  rw [contents, entryAt]
  cases d.find? name with
  | none => rfl
  | some entry =>
    cases entry with
    | folder inner => rfl
    | file bytes => by_cases hnames : names = [] <;> simp [hnames]

theorem entryAt_cons_eq_folder {d inner : Directory} {name : String} {names : List String} :
    d.entryAt (name :: names) = some (.folder inner) ↔
      ∃ next, d.find? name = some (.folder next) ∧ next.entryAt names = some (.folder inner) := by
  rw [entryAt]
  cases d.find? name with
  | none => simp
  | some entry =>
    cases entry with
    | folder next => simp
    | file bytes => by_cases hnames : names = [] <;> simp [hnames]

theorem exists_folder_of_append {d inner : Directory} {names more : List String}
    (h : d.entryAt (names ++ more) = some (.folder inner)) :
    ∃ outer, d.entryAt names = some (.folder outer) := by
  induction names generalizing d with
  | nil => exact ⟨d, rfl⟩
  | cons name names ih =>
    obtain ⟨next, hfind, hnext⟩ := entryAt_cons_eq_folder.mp h
    obtain ⟨outer, houter⟩ := ih hnext
    exact ⟨outer, entryAt_cons_eq_folder.mpr ⟨next, hfind, houter⟩⟩

/-- Following names from a folder leads to a folder. -/
theorem exists_folder_of_follow {d : Directory} {names trail reached : List String}
    (hfolder : ∃ inner, d.entryAt trail = some (.folder inner))
    (h : d.follow trail names = .ok reached) :
    ∃ inner, d.entryAt reached = some (.folder inner) := by
  fun_induction follow d trail names with
  | case1 trail =>
    cases h
    exact hfolder
  | case2 trail names ih => exact ih hfolder h
  | case3 => cases h
  | case4 trail names hnonempty _ ih =>
    refine ih ?_ h
    obtain ⟨inner, hinner⟩ := hfolder
    rw [← List.dropLast_concat_getLast hnonempty] at hinner
    exact exists_folder_of_append hinner
  | case5 => cases h
  | case6 => cases h
  | case7 trail name names hhere hparent inner hinner ih => exact ih ⟨inner, hinner⟩ h

/-! ### Putting a file -/

theorem find?_putFile {d : Directory} {name : String} (bytes : ByteArray)
    (hfree : ∀ inner, d.find? name ≠ some (.folder inner)) (other : String) :
    (d.putFile name bytes).find? other =
      if other = name then some (.file bytes) else d.find? other := by
  induction d with
  | empty => simp [putFile, find?, eq_comm]
  | file n old rest ih =>
    by_cases hn : n = name
    · subst hn
      by_cases hother : other = n
      · simp [putFile, find?, hother]
      · simp [putFile, find?, hother, Ne.symm hother]
    · have hrest := ih (by simpa [find?, hn] using hfree)
      rw [putFile, if_neg hn, find?, hrest, find?]
      by_cases hother : n = other
      · simp [hother, hother ▸ hn]
      · simp [hother]
  | folder n inner rest _ ih =>
    by_cases hn : n = name
    · exact absurd (by simp [find?, hn]) (hfree inner)
    · have hrest := ih (by simpa [find?, hn] using hfree)
      rw [putFile, if_neg hn, find?, hrest, find?]
      by_cases hother : n = other
      · simp [hother, hother ▸ hn]
      · simp [hother]

theorem find?_updateFolder {d inner : Directory} {name : String} (f : Directory → Directory)
    (hfolder : d.find? name = some (.folder inner)) (other : String) :
    (d.updateFolder name f).find? other =
      if other = name then some (.folder (f inner)) else d.find? other := by
  induction d with
  | empty => cases hfolder
  | file n bytes rest ih =>
    -- A file of that name would have been found first.
    have hn : n ≠ name := by
      rintro rfl
      simp [find?] at hfolder
    rw [updateFolder, find?, find?, ih (by simpa [find?, hn] using hfolder)]
    by_cases hother : n = other
    · simp [hother, hother ▸ hn]
    · simp [hother]
  | folder n next rest _ ih =>
    by_cases hn : n = name
    · subst hn
      obtain rfl : next = inner := by simpa [find?] using hfolder
      by_cases hother : other = n
      · simp [updateFolder, find?, hother]
      · simp [updateFolder, find?, hother, Ne.symm hother]
    · rw [updateFolder, if_neg hn, find?, find?, ih (by simpa [find?, hn] using hfolder)]
      by_cases hother : n = other
      · simp [hother, hother ▸ hn]
      · simp [hother]

theorem contents_putFile {d : Directory} {name : String} (bytes : ByteArray)
    (hfree : ∀ inner, d.find? name ≠ some (.folder inner)) :
    (d.putFile name bytes).contents = Function.update d.contents [name] (some bytes) := by
  funext names
  cases names with
  | nil => simp [contents_nil]
  | cons other names =>
    rw [contents_cons, find?_putFile bytes hfree]
    by_cases hother : other = name
    · subst hother
      by_cases hnames : names = []
      · simp [hnames]
      · have hold : d.contents (other :: names) = none := by
          rw [contents_cons]
          cases hfind : d.find? other with
          | none => rfl
          | some entry =>
            cases entry with
            | folder inner => exact absurd hfind (hfree inner)
            | file old => simp [hnames]
        simp [hnames, hold]
    · simp [hother, contents_cons]

/-- Only the file that is put gets new contents. -/
theorem contents_putFileAt {d inner : Directory} {trail : List String} {name : String}
    (bytes : ByteArray) (hfolder : d.entryAt trail = some (.folder inner))
    (hfree : ∀ next, d.entryAt (trail ++ [name]) ≠ some (.folder next)) :
    (d.putFileAt name bytes trail).contents =
      Function.update d.contents (trail ++ [name]) (some bytes) := by
  induction trail generalizing d with
  | nil =>
    apply contents_putFile
    intro next hnext
    exact hfree next (by simp [entryAt, hnext])
  | cons outer trail ih =>
    obtain ⟨next, hfind, hnext⟩ := entryAt_cons_eq_folder.mp hfolder
    have hinner := ih hnext (by simpa [entryAt, hfind] using hfree)
    funext names
    cases names with
    | nil => simp [contents_nil]
    | cons other names =>
      rw [putFileAt, contents_cons, find?_updateFolder _ hfind]
      by_cases hother : other = outer
      · subst hother
        simp only [if_true, hinner]
        by_cases hnames : names = trail ++ [name]
        · simp [hnames]
        · simp [hnames, contents_cons, hfind]
      · simp [hother, contents_cons]

/-! ### The files that paths name -/

/-- The names that lead to the file of a path. -/
def locate (d : Directory) (text : String) : Option (List String) :=
  let path := Path.ofText text
  match path.names.getLast?, d.follow [] path.names.dropLast with
  | some last, .ok trail =>
    if path.absolute ∨ last = "." ∨ last = ".." then none else some (trail ++ [last])
  | _, _ => none

/-- Go to the folder of a path and do something with the last name there, as reading and
writing do. -/
def reach {α : Type} (d : Directory) (text : String)
    (act : List String → String → Except AccessError α) : Except AccessError α := do
  let path := Path.ofText text
  if text = "" then throw .noSuchFile
  match path.names.getLast? with
  | none => throw .isADirectory
  | some last =>
    if path.absolute then throw .noSuchFile
    let trail ← d.follow [] path.names.dropLast
    act trail last

theorem exists_of_reach {α : Type} {d : Directory} {text : String}
    {act : List String → String → Except AccessError α} {a : α} (h : d.reach text act = .ok a) :
    ∃ trail last, act trail last = .ok a ∧
      (∃ inner, d.entryAt trail = some (.folder inner)) ∧
      (last ≠ "." → last ≠ ".." → d.locate text = some (trail ++ [last])) := by
  rw [reach] at h
  obtain ⟨-, h⟩ := unless_eq_ok.mp h
  cases hlast : (Path.ofText text).names.getLast? with
  | none =>
    rw [hlast] at h
    cases h
  | some last =>
    rw [hlast] at h
    obtain ⟨habsolute, h⟩ := unless_eq_ok.mp h
    obtain ⟨trail, hfollow, h⟩ := bind_eq_ok.mp h
    refine ⟨trail, last, h, exists_folder_of_follow ⟨d, rfl⟩ hfollow, ?_⟩
    intro hhere hparent
    simp [locate, hlast, hfollow, habsolute, hhere, hparent]

theorem contents_of_read {d : Directory} {text : String} {bytes : ByteArray}
    (h : d.read text = .ok bytes) :
    ∃ file, d.locate text = some file ∧ d.contents file = some bytes := by
  obtain ⟨trail, last, hact, -, hlocate⟩ := exists_of_reach h
  obtain ⟨hname, hact⟩ := unless_eq_ok.mp hact
  obtain ⟨hhere, hparent⟩ := not_or.mp hname
  refine ⟨trail ++ [last], hlocate hhere hparent, ?_⟩
  rw [contents]
  cases hentry : d.entryAt (trail ++ [last]) with
  | none =>
    rw [hentry] at hact
    cases hact
  | some entry =>
    rw [hentry] at hact
    cases entry with
    | folder inner => cases hact
    | file found =>
      simp only at hact
      split at hact
      · cases hact
      · cases hact
        rfl

theorem contents_of_write {d after : Directory} {text : String} {bytes : ByteArray}
    (h : d.write text bytes = .ok after) :
    ∃ file, d.locate text = some file ∧
      after.contents = Function.update d.contents file (some bytes) := by
  obtain ⟨trail, last, hact, ⟨inner, hinner⟩, hlocate⟩ := exists_of_reach h
  obtain ⟨hname, hact⟩ := unless_eq_ok.mp hact
  obtain ⟨hhere, hname⟩ := not_or.mp hname
  obtain ⟨hparent, -⟩ := not_or.mp hname
  refine ⟨trail ++ [last], hlocate hhere hparent, ?_⟩
  split at hact
  · cases hact
  · rename_i hfree
    cases hact
    exact contents_putFileAt bytes hinner hfree

theorem run_write (d : Directory) (path : String) (bytes : ByteArray) :
    (access.write path bytes).run d =
      match d.write path bytes with
      | .ok after => (.ok (), after)
      | .error e => (.error e, d) := by
  simp only [access, StateT.run_bind, StateT.run_get, pure_bind]
  cases d.write path bytes with
  | error e => rfl
  | ok after => rfl

/-- A directory in memory is a file store. -/
def store : FileStore Directory (List String) where
  access := Directory.access
  contents := contents
  locate := locate
  read_keeps _ _ := rfl
  contents_of_read d path bytes h := contents_of_read h
  failed_write_keeps d path bytes e h := by
    rw [run_write] at h ⊢
    cases hwrite : d.write path bytes with
    | error e => rfl
    | ok after =>
      rw [hwrite] at h
      cases h
  contents_of_write d path bytes h := by
    rw [run_write] at h ⊢
    cases hwrite : d.write path bytes with
    | error e =>
      rw [hwrite] at h
      cases h
    | ok after => exact contents_of_write hwrite

end Directory

end BlockLang.CommandLine
