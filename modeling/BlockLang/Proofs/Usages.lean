import BlockLang.Proofs.FileStores

/-!
# Valid usages

`Spells` is the grammar of arguments: how files, options and their values are written and which
things they ask for. A usage asks for one file, at most one target and output, and at most once for
debugging records. A parser of arguments conforms if it finds in every spelling of a usage what the
usage asks for, with the defaults for the rest. `parse` conforms, and it accepts nothing else
(`parse_eq_found_iff`).
-/

namespace BlockLang.CommandLine

/-! ### The grammar of arguments -/

/-- What a part of the arguments asks for. -/
inductive Given where
  | file (path : String)
  | target (t : Target)
  | output (path : String)
  | verbose
deriving DecidableEq

def Setting.word : Setting → String
  | .target => "target"
  | .output => "output"

def Setting.letter : Setting → Char
  | .target => 't'
  | .output => 'o'

/-- What an option with this value asks for. -/
inductive Means : Setting → String → Given → Prop
  | pascal : Means .target "pascal" (.target .pascal)
  | c : Means .target "c" (.target .c)
  | output (path : String) : Means .output path (.output path)

/-- No option looks like this. -/
def IsPlain (argument : String) : Prop := argument = "-" ∨ argument.toList.head? ≠ some '-'

/-- A dash, some requests for debugging records and other letters. -/
def cluster (n : Nat) (letters : List Char) : String :=
  String.ofList ('-' :: (List.replicate n 'v' ++ letters))

inductive Spells : List String → List Given → Prop
  | nil : Spells [] []
  | separator (files : List String) : Spells ("--" :: files) (files.map .file)
  | file {path : String} {arguments : List String} {gs : List Given} (plain : IsPlain path)
      (rest : Spells arguments gs) : Spells (path :: arguments) (.file path :: gs)
  | verbose {arguments : List String} {gs : List Given} (rest : Spells arguments gs) :
      Spells ("--verbose" :: arguments) (.verbose :: gs)
  | attached {s : Setting} {value : String} {given : Given} {arguments : List String}
      {gs : List Given} (means : Means s value given) (rest : Spells arguments gs) :
      Spells (("--" ++ s.word ++ "=" ++ value) :: arguments) (given :: gs)
  | separate {s : Setting} {value : String} {given : Given} {arguments : List String}
      {gs : List Given} (means : Means s value given) (plain : IsPlain value)
      (rest : Spells arguments gs) :
      Spells (("--" ++ s.word) :: value :: arguments) (given :: gs)
  | shortVerbose {arguments : List String} {gs : List Given} (n : Nat)
      (rest : Spells arguments gs) :
      Spells (cluster (n + 1) [] :: arguments) (List.replicate (n + 1) .verbose ++ gs)
  | shortAttached {s : Setting} {value : String} {given : Given} {arguments : List String}
      {gs : List Given} (n : Nat) (means : Means s value given) (nonempty : value ≠ "")
      (plain : value.toList.head? ≠ some '=') (rest : Spells arguments gs) :
      Spells (cluster n (s.letter :: value.toList) :: arguments)
        (List.replicate n .verbose ++ given :: gs)
  | shortEquals {s : Setting} {value : String} {given : Given} {arguments : List String}
      {gs : List Given} (n : Nat) (means : Means s value given) (rest : Spells arguments gs) :
      Spells (cluster n (s.letter :: '=' :: value.toList) :: arguments)
        (List.replicate n .verbose ++ given :: gs)
  | shortSeparate {s : Setting} {value : String} {given : Given} {arguments : List String}
      {gs : List Given} (n : Nat) (means : Means s value given) (plain : IsPlain value)
      (rest : Spells arguments gs) :
      Spells (cluster n [s.letter] :: value :: arguments)
        (List.replicate n .verbose ++ given :: gs)

/-! ### Usages -/

namespace Given

def file? : Given → Option String
  | .file path => some path
  | _ => none

def target? : Given → Option Target
  | .target t => some t
  | _ => none

def output? : Given → Option String
  | .output path => some path
  | _ => none

end Given

/-- What valid arguments ask for. -/
structure Usage where
  input : String
  target : Option Target
  output : Option String
  verbose : Bool

/-- These are the things that the usage asks for, each of them once. -/
structure Usage.AskedBy (u : Usage) (gs : List Given) : Prop where
  files : gs.filterMap Given.file? = [u.input]
  targets : gs.filterMap Given.target? = u.target.toList
  outputs : gs.filterMap Given.output? = u.output.toList
  verbose : gs.count .verbose = u.verbose.toNat

def Usage.SpelledBy (u : Usage) (arguments : List String) : Prop :=
  ∃ gs, Spells arguments gs ∧ u.AskedBy gs

theorem Usage.SpelledBy.loud {u : Usage} {arguments : List String} (h : u.SpelledBy arguments)
    (hquiet : u.verbose = false) :
    SpelledBy { u with verbose := true } ("-v" :: arguments) := by
  obtain ⟨gs, hspells, hasked⟩ := h
  refine ⟨.verbose :: gs, .shortVerbose 0 hspells, hasked.files, hasked.targets, hasked.outputs, ?_⟩
  rw [List.count_cons_self, hasked.verbose, hquiet]
  rfl

/-- The name of the target, Pascal being the default. -/
def Usage.targetName (u : Usage) : String :=
  match u.target with
  | some .c => "c"
  | _ => "pascal"

/-- What the usage asks for has been found, with the defaults for the rest. -/
structure Usage.FoundAs (u : Usage) (m : Matches) : Prop where
  input : m.input = some u.input
  target : m.target = some u.targetName
  output : m.output = some (u.output.getD "-")
  verbose : m.verbose = u.verbose

/-- The parser finds what valid arguments ask for. -/
def Conforms (parse : List String → Answer) : Prop :=
  ∀ (u : Usage) (arguments : List String), u.SpelledBy arguments →
    ∃ m, parse arguments = .found m ∧ u.FoundAs m

/-! ### The shapes of arguments -/

/-- All shapes that arguments have. -/
inductive Shaped : String → Shape → Prop
  | separator : Shaped "--" .separator
  | flag (option : String) : Shaped ("--" ++ option) (.long option none)
  | valued (option value : String) :
      Shaped ("--" ++ option ++ "=" ++ value) (.long option (some value))
  | short (c : Char) (letters : List Char) :
      Shaped (String.ofList ('-' :: c :: letters)) (.short (c :: letters))
  | plain {argument : String} (h : IsPlain argument) : Shaped argument .plain

theorem shaped_longShape {argument : String} {cs : List Char}
    (h : argument.toList = '-' :: '-' :: cs) : Shaped argument (longShape cs) := by
  have hsplit := List.takeWhile_append_dropWhile (p := fun c => decide (c ≠ '=')) (l := cs)
  have hhead := List.head?_dropWhile_not (fun c => decide (c ≠ '=')) cs
  unfold longShape
  generalize cs.takeWhile (fun c => decide (c ≠ '=')) = option at hsplit
  generalize cs.dropWhile (fun c => decide (c ≠ '=')) = value at hsplit hhead
  subst hsplit
  cases value with
  | nil =>
    have htext : argument = "--" ++ String.ofList option := by
      rw [← String.toList_inj, h]
      simp
    rw [htext]
    exact .flag _
  | cons c value =>
    obtain rfl : c = '=' := by simpa using hhead
    have htext : argument = "--" ++ String.ofList option ++ "=" ++ String.ofList value := by
      rw [← String.toList_inj, h]
      simp
    rw [htext]
    exact .valued _ _

theorem shaped_shape (argument : String) : Shaped argument (shape argument) := by
  unfold shape
  split
  · next htext =>
    obtain rfl : argument = "--" := String.toList_inj.mp htext
    exact .separator
  · next cs _ htext => exact shaped_longShape htext
  · next c letters _ _ htext =>
    obtain rfl : argument = String.ofList ('-' :: c :: letters) := by
      rw [← htext, String.ofList_toList]
    exact .short c letters
  · next hshort =>
    refine .plain ?_
    cases htext : argument.toList with
    | nil => exact .inr (by simp [htext])
    | cons c rest =>
      by_cases hc : c = '-'
      · subst hc
        cases rest with
        | nil => exact .inl (String.toList_inj.mp htext)
        | cons d rest => exact absurd htext (hshort d rest)
      · exact .inr (by simpa [htext] using hc)

theorem shape_of_isPlain {argument : String} (h : IsPlain argument) : shape argument = .plain := by
  rcases h with rfl | h
  · rfl
  · unfold shape
    cases htext : argument.toList with
    | nil => rfl
    | cons c rest =>
      have hc : c ≠ '-' := by simpa [htext] using h
      split <;> simp_all

theorem shape_word (s : Setting) : shape ("--" ++ s.word) = .long s.word none := by
  cases s <;> rfl

theorem shape_word_value (s : Setting) (value : String) :
    shape ("--" ++ s.word ++ "=" ++ value) = .long s.word (some value) := by
  have hvalue : String.ofList value.toList = value := String.ofList_toList
  unfold shape
  rw [String.toList_append]
  cases s with
  | target => exact congrArg (fun v => Shape.long "target" (some v)) hvalue
  | output => exact congrArg (fun v => Shape.long "output" (some v)) hvalue

theorem shape_cluster {n : Nat} {letters : List Char} {c : Char} {rest : List Char}
    (h : List.replicate n 'v' ++ letters = c :: rest) (hc : c ≠ '-') :
    shape (cluster n letters) = .short (c :: rest) := by
  unfold shape cluster
  rw [String.toList_ofList, h]
  split <;> simp_all

/-! ### Gathering -/

/-- The option that a request is gathered as. -/
def Given.setting? : Given → Option (Setting × Option String)
  | .target t => some (.target, some t.name)
  | .output path => some (.output, some path)
  | _ => none

theorem Means.setting {s : Setting} {value : String} {given : Given} (h : Means s value given) :
    given.setting? = some (s, some value) ∧ given ≠ .verbose ∧ given.file? = none := by
  cases h with
  | pascal => exact ⟨rfl, nofun, rfl⟩
  | c => exact ⟨rfl, nofun, rfl⟩
  | output path => exact ⟨rfl, nofun, rfl⟩

namespace Gathered

/-- What has been gathered after these requests. There is no room for a second file. -/
structure Adds (g : Gathered) (gs : List Given) (g' : Gathered) : Prop where
  settings : g'.settings = g.settings ++ gs.filterMap Given.setting?
  verbose : g'.verbose = g.verbose + gs.count .verbose
  file : g'.file.toList = g.file.toList ++ gs.filterMap Given.file?

variable {g g' : Gathered} {gs : List Given}

theorem adds_nil_iff : g.Adds [] g' ↔ g' = g := by
  refine ⟨fun h => ?_, ?_⟩
  · obtain ⟨settings, verbose, file⟩ := g
    obtain ⟨settings', verbose', file'⟩ := g'
    obtain ⟨hsettings, hverbose, hfile⟩ := h
    cases file <;> cases file' <;> simp_all
  · rintro rfl
    exact ⟨by simp, by simp, by simp⟩

theorem adds_congr {h : Gathered} {hs : List Given}
    (settings : g.settings ++ gs.filterMap Given.setting? =
      h.settings ++ hs.filterMap Given.setting?)
    (verbose : g.verbose + gs.count .verbose = h.verbose + hs.count .verbose)
    (file : g.file.toList ++ gs.filterMap Given.file? =
      h.file.toList ++ hs.filterMap Given.file?) :
    g.Adds gs g' ↔ h.Adds hs g' := by
  refine ⟨fun hadds => ?_, fun hadds => ?_⟩
  · exact ⟨hadds.settings.trans settings, hadds.verbose.trans verbose, hadds.file.trans file⟩
  · exact ⟨hadds.settings.trans settings.symm, hadds.verbose.trans verbose.symm,
      hadds.file.trans file.symm⟩

/-- Some more requests for debugging records. -/
def louder (g : Gathered) (n : Nat) : Gathered := { g with verbose := g.verbose + n }

theorem adds_replicate_iff (n : Nat) :
    g.Adds (List.replicate n .verbose ++ gs) g' ↔ (g.louder n).Adds gs g' := by
  apply adds_congr
  · simp [louder, List.filterMap_append, List.filterMap_replicate, Given.setting?]
  · simp [louder, List.count_append, Nat.add_assoc]
  · simp [louder, List.filterMap_append, List.filterMap_replicate, Given.file?]

theorem adds_verbose_iff : g.Adds (.verbose :: gs) g' ↔ g.setVerbose.Adds gs g' :=
  adds_replicate_iff 1

theorem adds_means_iff {s : Setting} {value : String} {given : Given} (h : Means s value given) :
    g.Adds (given :: gs) g' ↔ (g.set s (some value)).Adds gs g' := by
  obtain ⟨hsetting, hverbose, hfile⟩ := h.setting
  apply adds_congr
  · rw [List.filterMap_cons_some hsetting]
    exact List.append_cons ..
  · rw [List.count_cons_of_ne hverbose]
    rfl
  · rw [List.filterMap_cons_none hfile]
    rfl

theorem adds_file_iff {path : String} :
    g.Adds (.file path :: gs) g' ↔ ∃ next, g.setFile path = .ok next ∧ next.Adds gs g' := by
  obtain ⟨settings, verbose, file⟩ := g
  cases file with
  | none =>
    refine ⟨fun h => ⟨_, rfl, h.settings, h.verbose, h.file⟩, ?_⟩
    rintro ⟨next, hnext, h⟩
    cases hnext
    exact ⟨h.settings, h.verbose, h.file⟩
  | some old =>
    refine ⟨fun h => ?_, ?_⟩
    · have hlength := congrArg List.length h.file
      cases hfile : g'.file <;> simp [hfile, Given.file?] at hlength
    · rintro ⟨next, hnext, -⟩
      cases hnext

end Gathered

theorem gatherFiles_eq_ok_iff {g g' : Gathered} {files : List String} :
    gatherFiles g files = .ok g' ↔ g.Adds (files.map .file) g' := by
  induction files generalizing g with
  | nil =>
    rw [List.map_nil, Gathered.adds_nil_iff, eq_comm]
    exact Except.ok.injEq .. |>.to_iff
  | cons file files ih =>
    rw [List.map_cons, Gathered.adds_file_iff, gatherFiles, bind_eq_ok]
    exact exists_congr fun next => and_congr_right fun _ => ih

theorem longOption_word (g : Gathered) (s : Setting) (value : Option String) :
    longOption g s.word value = .ok (longSetting g s value) := by
  cases s <;> rfl

theorem shortOptions_letter (g : Gathered) (s : Setting) (rest : List Char) :
    shortOptions g (s.letter :: rest) = .ok (shortSetting g s rest) := by
  cases s <;> rfl

theorem shortOptions_replicate (g : Gathered) (n : Nat) (letters : List Char) :
    shortOptions g (List.replicate n 'v' ++ letters) = shortOptions (g.louder n) letters := by
  induction n generalizing g with
  | zero => rfl
  | succ n ih =>
    have hlouder : g.setVerbose.louder n = g.louder (n + 1) := by
      simp only [Gathered.louder, Gathered.setVerbose, Nat.add_assoc, Nat.add_comm 1]
    rw [List.replicate_succ, List.cons_append, shortOptions, ih, hlouder]

section Gather
variable {g g' : Gathered} {arguments : List String}

theorem gather_separator (waiting : Option Setting) :
    gather g waiting ("--" :: arguments) = gatherFiles (g.giveUp waiting) arguments := rfl

theorem gather_long (waiting : Option Setting) {argument option : String} {value : Option String}
    (hshape : shape argument = .long option value) :
    gather g waiting (argument :: arguments) =
      longOption (g.giveUp waiting) option value >>=
        fun next => gather next.1 next.2 arguments := by
  simp only [gather, hshape]

theorem gather_short (waiting : Option Setting) {argument : String} {letters : List Char}
    (hshape : shape argument = .short letters) :
    gather g waiting (argument :: arguments) =
      shortOptions (g.giveUp waiting) letters >>= fun next => gather next.1 next.2 arguments := by
  simp only [gather, hshape]

theorem gather_value (s : Setting) {argument : String} (plain : IsPlain argument) :
    gather g (some s) (argument :: arguments) =
      gather (g.set s (some argument)) none arguments := by
  simp only [gather, shape_of_isPlain plain]

theorem gather_file {argument : String} (plain : IsPlain argument) :
    gather g none (argument :: arguments) =
      g.setFile argument >>= fun next => gather next none arguments := by
  simp only [gather, shape_of_isPlain plain]

theorem gather_cluster {n : Nat} {letters : List Char} (hne : n ≠ 0 ∨ letters ≠ [])
    (hdash : letters.head? ≠ some '-') :
    gather g none (cluster n letters :: arguments) =
      shortOptions (g.louder n) letters >>= fun next => gather next.1 next.2 arguments := by
  obtain ⟨c, rest, htext, hc⟩ :
      ∃ c rest, List.replicate n 'v' ++ letters = c :: rest ∧ c ≠ '-' := by
    cases n with
    | succ n => exact ⟨'v', _, rfl, by decide⟩
    | zero =>
      obtain ⟨c, rest, rfl⟩ := List.exists_cons_of_ne_nil (hne.resolve_left (fun h => h rfl))
      exact ⟨c, rest, rfl, by simpa using hdash⟩
  rw [gather_short none (shape_cluster htext hc), ← htext, Gathered.giveUp, shortOptions_replicate]

theorem gather_letter (n : Nat) (s : Setting) (rest : List Char) :
    gather g none (cluster n (s.letter :: rest) :: arguments) =
      gather (shortSetting (g.louder n) s rest).1 (shortSetting (g.louder n) s rest).2
        arguments := by
  have hdash : (s.letter :: rest).head? ≠ some '-' := by cases s <;> simp [Setting.letter]
  rw [gather_cluster (.inr (List.cons_ne_nil _ _)) hdash, shortOptions_letter]
  rfl

/-- Spelled arguments are gathered as what they ask for. -/
theorem gather_of_spells {gs : List Given} (h : Spells arguments gs) (hadds : g.Adds gs g') :
    gather g none arguments = .ok g' := by
  induction h generalizing g with
  | nil => exact congrArg Except.ok (Gathered.adds_nil_iff.mp hadds).symm
  | separator files => exact gatherFiles_eq_ok_iff.mpr hadds
  | file plain rest ih =>
    obtain ⟨next, hnext, hadds⟩ := Gathered.adds_file_iff.mp hadds
    rw [gather_file plain, hnext]
    exact ih hadds
  | verbose rest ih =>
    have hshape : shape "--verbose" = .long "verbose" none := rfl
    rw [gather_long none hshape]
    exact ih (Gathered.adds_verbose_iff.mp hadds)
  | attached means rest ih =>
    rw [gather_long none (shape_word_value ..), longOption_word]
    exact ih ((Gathered.adds_means_iff means).mp hadds)
  | separate means plain rest ih =>
    rw [gather_long none (shape_word ..), longOption_word]
    refine (gather_value _ plain).trans ?_
    exact ih ((Gathered.adds_means_iff means).mp hadds)
  | shortVerbose n rest ih =>
    rw [gather_cluster (.inl n.succ_ne_zero) (by simp)]
    exact ih ((Gathered.adds_replicate_iff _).mp hadds)
  | @shortAttached s value given arguments gs n means nonempty plain rest ih =>
    have hadds := (Gathered.adds_means_iff means).mp ((Gathered.adds_replicate_iff _).mp hadds)
    rw [gather_letter]
    obtain ⟨c, more, hvalue⟩ : ∃ c more, value.toList = c :: more :=
      List.exists_cons_of_ne_nil (by simpa using nonempty)
    have hattached : attached (c :: more) = value := by
      rw [← String.ofList_toList (s := value), hvalue]
      unfold attached
      split <;> simp_all
    rw [hvalue, shortSetting, hattached]
    exact ih hadds
  | @shortEquals s value given arguments gs n means rest ih =>
    have hadds := (Gathered.adds_means_iff means).mp ((Gathered.adds_replicate_iff _).mp hadds)
    rw [gather_letter, shortSetting, attached, String.ofList_toList]
    exact ih hadds
  | @shortSeparate s value given arguments gs n means plain rest ih =>
    have hadds := (Gathered.adds_means_iff means).mp ((Gathered.adds_replicate_iff _).mp hadds)
    rw [gather_letter]
    exact (gather_value _ plain).trans (ih hadds)

/-- Every option gathered has a value that it may have. -/
def Gathered.Valued (g : Gathered) : Prop :=
  ∀ s value, (s, value) ∈ g.settings → ∃ text given, value = some text ∧ Means s text given

theorem means_of_adds {s : Setting} {value : String} {gs : List Given} (h : g'.Valued)
    (hadds : (g.set s (some value)).Adds gs g') : ∃ given, Means s value given := by
  obtain ⟨text, given, htext, hmeans⟩ := h s (some value) (by simp [hadds.settings, Gathered.set])
  obtain rfl := Option.some.inj htext
  exact ⟨given, hmeans⟩

theorem not_adds_of_valued {s : Setting} {gs : List Given} (h : g'.Valued) :
    ¬ (g.set s none).Adds gs g' := by
  intro hadds
  obtain ⟨text, given, htext, -⟩ := h s none (by simp [hadds.settings, Gathered.set])
  cases htext

/-- What gathering may have done with arguments, an option possibly waiting for its value. -/
def Gathers (g : Gathered) (waiting : Option Setting) (arguments : List String) (g' : Gathered) :
    Prop :=
  match waiting with
  | none => ∃ gs, Spells arguments gs ∧ g.Adds gs g'
  | some s => ∃ value rest given gs, arguments = value :: rest ∧ IsPlain value ∧
      Means s value given ∧ Spells rest gs ∧ g.Adds (given :: gs) g'

theorem longOption_eq_ok {option : String} {value : Option String} {next : Gathering}
    (h : longOption g option value = .ok next) :
    (∃ s, option = s.word ∧ next = longSetting g s value) ∨
      option = "verbose" ∧ value = none ∧ next = (g.setVerbose, none) := by
  unfold longOption at h
  split at h
  · next hword => exact .inl ⟨.target, hword, (Except.ok.inj h).symm⟩
  split at h
  · next hword => exact .inl ⟨.output, hword, (Except.ok.inj h).symm⟩
  split at h
  · next hword =>
    cases value with
    | none => exact .inr ⟨hword, rfl, (Except.ok.inj h).symm⟩
    | some value => cases h
  split at h
  · cases value <;> cases h
  split at h
  · cases value <;> cases h
  · cases h

theorem shortOptions_eq_ok {letters : List Char} {next : Gathering}
    (h : shortOptions g letters = .ok next) :
    ∃ n, (letters = List.replicate n 'v' ∧ next = (g.louder n, none)) ∨
      ∃ s rest, letters = List.replicate n 'v' ++ s.letter :: rest ∧
        next = shortSetting (g.louder n) s rest := by
  fun_induction shortOptions g letters with
  | case1 g => exact ⟨0, .inl ⟨rfl, (Except.ok.inj h).symm⟩⟩
  | case2 g rest ih =>
    have hlouder (n : Nat) : g.setVerbose.louder n = g.louder (n + 1) := by
      simp only [Gathered.louder, Gathered.setVerbose, Nat.add_assoc, Nat.add_comm 1]
    obtain ⟨n, ⟨rfl, rfl⟩ | ⟨s, more, rfl, rfl⟩⟩ := ih h
    · exact ⟨n + 1, .inl ⟨rfl, by rw [hlouder]⟩⟩
    · exact ⟨n + 1, .inr ⟨s, more, rfl, by rw [hlouder]⟩⟩
  | case3 => cases h
  | case4 => cases h
  | case5 g rest => exact ⟨0, .inr ⟨.target, rest, rfl, (Except.ok.inj h).symm⟩⟩
  | case6 g rest => exact ⟨0, .inr ⟨.output, rest, rfl, (Except.ok.inj h).symm⟩⟩
  | case7 => cases h

theorem gathers_long {s : Setting} {argument : String} {value : Option String}
    (hvalued : g'.Valued) (hshaped : Shaped argument (.long s.word value))
    (h : Gathers (longSetting g s value).1 (longSetting g s value).2 arguments g') :
    Gathers g none (argument :: arguments) g' := by
  cases hshaped with
  | flag =>
    obtain ⟨value, rest, given, gs, rfl, plain, means, spells, adds⟩ := h
    exact ⟨given :: gs, .separate means plain spells, adds⟩
  | valued _ value =>
    obtain ⟨gs, spells, adds⟩ := h
    obtain ⟨given, means⟩ := means_of_adds hvalued adds
    exact ⟨given :: gs, .attached means spells, (Gathered.adds_means_iff means).mpr adds⟩

theorem gathers_short (n : Nat) {s : Setting} {rest : List Char} (hvalued : g'.Valued)
    (h : Gathers (shortSetting (g.louder n) s rest).1 (shortSetting (g.louder n) s rest).2
      arguments g') :
    Gathers g none (cluster n (s.letter :: rest) :: arguments) g' := by
  cases rest with
  | nil =>
    obtain ⟨value, rest, given, gs, rfl, plain, means, spells, adds⟩ := h
    exact ⟨_, .shortSeparate n means plain spells, (Gathered.adds_replicate_iff n).mpr adds⟩
  | cons c more =>
    obtain ⟨gs, spells, adds⟩ := h
    obtain ⟨given, means⟩ := means_of_adds hvalued adds
    have hadds := (Gathered.adds_replicate_iff n).mpr ((Gathered.adds_means_iff means).mpr adds)
    by_cases hc : c = '='
    · subst hc
      have hspells := Spells.shortEquals n means spells
      rw [attached, String.toList_ofList] at hspells
      exact ⟨_, hspells, hadds⟩
    · have hvalue : attached (c :: more) = String.ofList (c :: more) := by
        unfold attached
        split <;> simp_all
      rw [hvalue] at means
      have hspells := Spells.shortAttached n means (by simp) (by simpa using hc) spells
      rw [String.toList_ofList] at hspells
      exact ⟨_, hspells, hadds⟩

/-- An argument that looks like an option is never taken for a value. -/
theorem gathers_option {waiting : Option Setting} {argument : String} (hvalued : g'.Valued)
    (hshape : shape argument ≠ .plain)
    (ih : ∀ {next : Gathered} {waiting : Option Setting},
      gather next waiting arguments = .ok g' → Gathers next waiting arguments g')
    (h : gather g waiting (argument :: arguments) = .ok g') :
    Gathers (g.giveUp waiting) none (argument :: arguments) g' := by
  have hshaped := shaped_shape argument
  generalize hlook : shape argument = look at hshape hshaped
  cases hlong : look with
  | separator =>
    subst hlong
    cases hshaped
    rw [gather_separator] at h
    exact ⟨_, .separator arguments, gatherFiles_eq_ok_iff.mp h⟩
  | long option value =>
    subst hlong
    rw [gather_long waiting hlook] at h
    obtain ⟨next, hnext, h⟩ := bind_eq_ok.mp h
    rcases longOption_eq_ok hnext with ⟨s, rfl, rfl⟩ | ⟨rfl, rfl, rfl⟩
    · exact gathers_long hvalued hshaped (ih h)
    · cases hshaped
      obtain ⟨gs, spells, adds⟩ := ih h
      exact ⟨_, .verbose spells, Gathered.adds_verbose_iff.mpr adds⟩
  | short letters =>
    subst hlong
    rw [gather_short waiting hlook] at h
    obtain ⟨next, hnext, hrest⟩ := bind_eq_ok.mp h
    obtain ⟨n, ⟨hletters, rfl⟩ | ⟨s, rest, hletters, rfl⟩⟩ := shortOptions_eq_ok hnext
    · cases hshaped with
      | short c letters =>
        obtain ⟨gs, spells, adds⟩ := ih hrest
        cases n with
        | zero => cases hletters
        | succ n =>
          rw [hletters]
          have hspells := Spells.shortVerbose n spells
          rw [cluster, List.append_nil] at hspells
          exact ⟨_, hspells, (Gathered.adds_replicate_iff _).mpr adds⟩
    · cases hshaped with
      | short c letters =>
        rw [hletters]
        exact gathers_short n hvalued (ih hrest)
  | plain => exact absurd hlong hshape

theorem gathers_of_gather {waiting : Option Setting} (hvalued : g'.Valued)
    (h : gather g waiting arguments = .ok g') : Gathers g waiting arguments g' := by
  induction arguments generalizing g waiting with
  | nil =>
    obtain rfl := Except.ok.inj h
    cases waiting with
    | none => exact ⟨[], .nil, Gathered.adds_nil_iff.mpr rfl⟩
    | some s => exact absurd (Gathered.adds_nil_iff.mpr rfl) (not_adds_of_valued hvalued)
  | cons argument arguments ih =>
    by_cases hshape : shape argument = .plain
    · have hshaped := shaped_shape argument
      rw [hshape] at hshaped
      have plain : IsPlain argument := by
        cases hshaped with
        | plain plain => exact plain
      cases waiting with
      | none =>
        rw [gather_file plain] at h
        obtain ⟨next, hnext, h⟩ := bind_eq_ok.mp h
        obtain ⟨gs, spells, adds⟩ := ih h
        exact ⟨_, .file plain spells, Gathered.adds_file_iff.mpr ⟨next, hnext, adds⟩⟩
      | some s =>
        rw [gather_value s plain] at h
        obtain ⟨gs, spells, adds⟩ := ih h
        obtain ⟨given, means⟩ := means_of_adds hvalued adds
        exact ⟨argument, arguments, given, gs, rfl, plain, means, spells,
          (Gathered.adds_means_iff means).mpr adds⟩
    · have hoption := gathers_option hvalued hshape ih h
      cases waiting with
      | none => exact hoption
      | some s =>
        obtain ⟨gs, -, adds⟩ := hoption
        exact absurd adds (not_adds_of_valued hvalued)

end Gather

/-! ### Validation -/

/-- What is found in the arguments of a usage. -/
def Usage.matches (u : Usage) : Matches :=
  ⟨some u.targetName, some (u.output.getD "-"), some u.input, u.verbose⟩

namespace Gathered
variable {g : Gathered} {gs : List Given}

theorem value_eq_ok_iff {s : Setting} {v : Option String} :
    g.value s = .ok v ↔
      g.settings.filter (fun occurrence => occurrence.1 = s) =
        v.toList.map (fun value => (s, some value)) := by
  have hall : ∀ o ∈ g.settings.filter (fun occurrence => decide (occurrence.1 = s)), o.1 = s := by
    intro o ho
    exact of_decide_eq_true (List.mem_filter.mp ho).2
  unfold value
  generalize g.settings.filter (fun occurrence => decide (occurrence.1 = s)) = occurrences at hall
  match occurrences with
  | [] => cases v <;> simp
  | [(s', some value)] =>
    obtain rfl : s' = s := hall _ (List.mem_singleton_self _)
    cases v <;> simp
  | [(s', none)] => cases v <;> simp
  | _ :: _ :: _ => cases v <;> simp

theorem filter_target (gs : List Given) :
    (gs.filterMap Given.setting?).filter (fun occurrence => occurrence.1 = Setting.target) =
      (gs.filterMap Given.target?).map (fun t => (.target, some t.name)) := by
  induction gs with
  | nil => rfl
  | cons given gs ih =>
    cases given with
    | target t => exact congrArg (List.cons _) ih
    | _ => exact ih

theorem filter_output (gs : List Given) :
    (gs.filterMap Given.setting?).filter (fun occurrence => occurrence.1 = Setting.output) =
      (gs.filterMap Given.output?).map (fun path => (.output, some path)) := by
  induction gs with
  | nil => rfl
  | cons given gs ih =>
    cases given with
    | output path => exact congrArg (List.cons _) ih
    | _ => exact ih

/-- Options are given once, the target by its name, and there is a file. -/
theorem validate_eq_ok_iff {m : Matches} :
    g.validate = .ok m ↔ ∃ target output file,
      g.value .target = .ok target ∧ Target.ofName? (target.getD "pascal") ≠ none ∧
      g.value .output = .ok output ∧ g.verbose ≤ 1 ∧ g.file = some file ∧
      m = ⟨some (target.getD "pascal"), some (output.getD "-"), some file, g.verbose = 1⟩ := by
  constructor
  · intro h
    obtain ⟨target, htarget, h⟩ := bind_eq_ok.mp h
    obtain ⟨hname, h⟩ := unless_eq_ok.mp h
    obtain ⟨output, houtput, h⟩ := bind_eq_ok.mp h
    obtain ⟨honce, h⟩ := unless_eq_ok.mp h
    obtain ⟨hfile, h⟩ := unless_eq_ok.mp h
    obtain ⟨file, hfile⟩ := Option.ne_none_iff_exists'.mp hfile
    rw [hfile] at h
    exact ⟨target, output, file, htarget, hname, houtput, Nat.not_lt.mp honce, hfile,
      (Except.ok.inj h).symm⟩
  · rintro ⟨target, output, file, htarget, hname, houtput, honce, hfile, rfl⟩
    refine bind_eq_ok.mpr ⟨target, htarget, unless_eq_ok.mpr ⟨hname, ?_⟩⟩
    refine bind_eq_ok.mpr ⟨output, houtput, unless_eq_ok.mpr ⟨Nat.not_lt.mpr honce, ?_⟩⟩
    rw [hfile]
    exact unless_eq_ok.mpr ⟨nofun, rfl⟩

theorem means_of_ofName? {name : String} (h : Target.ofName? name ≠ none) :
    ∃ given, Means .target name given := by
  unfold Target.ofName? at h
  split at h
  · next hname =>
    subst hname
    exact ⟨_, .pascal⟩
  split at h
  · next hname =>
    subst hname
    exact ⟨_, .c⟩
  · exact absurd rfl h

theorem valued_of_validate {m : Matches} (h : g.validate = .ok m) : g.Valued := by
  obtain ⟨target, output, file, htarget, hname, houtput, -⟩ := validate_eq_ok_iff.mp h
  rintro s value hmem
  have hfilter : (s, value) ∈ g.settings.filter (fun occurrence => decide (occurrence.1 = s)) :=
    List.mem_filter.mpr ⟨hmem, decide_eq_true rfl⟩
  cases s with
  | target =>
    rw [value_eq_ok_iff.mp htarget] at hfilter
    obtain ⟨text, htext, heq⟩ := List.mem_map.mp hfilter
    obtain rfl := Option.mem_toList.mp htext
    obtain ⟨given, hmeans⟩ := means_of_ofName? hname
    exact ⟨text, given, (Prod.mk.inj heq).2.symm, hmeans⟩
  | output =>
    rw [value_eq_ok_iff.mp houtput] at hfilter
    obtain ⟨text, htext, heq⟩ := List.mem_map.mp hfilter
    exact ⟨text, _, (Prod.mk.inj heq).2.symm, .output text⟩

theorem targetName_eq (u : Usage) : u.targetName = (u.target.map Target.name).getD "pascal" := by
  obtain ⟨input, target, output, verbose⟩ := u
  rcases target with _ | target
  · rfl
  · cases target <;> rfl

section Adds
variable (h : empty.Adds gs g)
include h

theorem value_target_iff {v : Option String} :
    g.value .target = .ok v ↔ (gs.filterMap Given.target?).map Target.name = v.toList := by
  rw [value_eq_ok_iff, h.settings]
  show (gs.filterMap Given.setting?).filter _ = _ ↔ _
  rw [filter_target, ← List.map_inj_right (f := fun value : String => (Setting.target, some value)),
    List.map_map]
  · rfl
  · intro x y hxy
    exact Option.some.inj (Prod.mk.inj hxy).2

theorem value_output_iff {v : Option String} :
    g.value .output = .ok v ↔ gs.filterMap Given.output? = v.toList := by
  rw [value_eq_ok_iff, h.settings]
  show (gs.filterMap Given.setting?).filter _ = _ ↔ _
  rw [filter_output, List.map_inj_right]
  intro x y hxy
  exact Option.some.inj (Prod.mk.inj hxy).2

theorem file_iff {file : String} : g.file = some file ↔ gs.filterMap Given.file? = [file] := by
  have hfile : g.file.toList = gs.filterMap Given.file? := h.file
  rw [← hfile]
  cases g.file <;> simp

theorem exists_usage {m : Matches} (hvalidate : g.validate = .ok m) :
    ∃ u : Usage, u.AskedBy gs ∧ m = u.matches := by
  obtain ⟨target, output, file, htarget, hname, houtput, honce, hfile, rfl⟩ :=
    validate_eq_ok_iff.mp hvalidate
  have htargets := (value_target_iff h).mp htarget
  have hverbose : g.verbose = gs.count .verbose := h.verbose.trans (Nat.zero_add _)
  obtain ⟨t, ht, htarget⟩ : ∃ t : Option Target,
      gs.filterMap Given.target? = t.toList ∧ target = t.map Target.name := by
    cases target with
    | none => exact ⟨none, List.map_eq_nil_iff.mp htargets, rfl⟩
    | some name =>
      obtain ⟨t, ht, rfl⟩ := List.map_eq_singleton_iff.mp htargets
      exact ⟨some t, ht, rfl⟩
  refine ⟨⟨file, t, output, g.verbose = 1⟩,
    ⟨(file_iff h).mp hfile, ht, (value_output_iff h).mp houtput, ?_⟩, ?_⟩
  · rw [← hverbose]
    rcases Nat.le_one_iff_eq_zero_or_eq_one.mp honce with hv | hv <;> simp [hv]
  · rw [Usage.matches, targetName_eq, htarget]

theorem validate_of_askedBy {u : Usage} (hasked : u.AskedBy gs) :
    g.validate = .ok u.matches := by
  have hverbose : g.verbose = u.verbose.toNat :=
    (h.verbose.trans (Nat.zero_add _)).trans hasked.verbose
  refine validate_eq_ok_iff.mpr ⟨u.target.map Target.name, u.output, u.input,
    (value_target_iff h).mpr ?_, ?_, (value_output_iff h).mpr hasked.outputs, ?_,
    (file_iff h).mpr hasked.files, ?_⟩
  · rw [hasked.targets]
    cases u.target <;> rfl
  · cases u.target with
    | none => decide
    | some t => simp
  · rw [hverbose]
    exact Bool.toNat_le _
  · rw [Usage.matches, targetName_eq, hverbose]
    cases u.verbose <;> rfl

end Adds

end Gathered

/-! ### The parser -/

theorem parse_eq_found {arguments : List String} {m : Matches} :
    parse arguments = .found m ↔ gather .empty none arguments >>= Gathered.validate = .ok m := by
  unfold parse
  cases gather .empty none arguments >>= Gathered.validate with
  | ok m' => simp
  | error stop => cases stop <;> simp

/-- Exactly the spellings of usages are accepted, and what they ask for is found. -/
theorem parse_eq_found_iff {arguments : List String} {m : Matches} :
    parse arguments = .found m ↔ ∃ u : Usage, u.SpelledBy arguments ∧ m = u.matches := by
  rw [parse_eq_found, bind_eq_ok]
  constructor
  · rintro ⟨g, hgather, hvalidate⟩
    obtain ⟨gs, hspells, hadds⟩ :=
      gathers_of_gather (Gathered.valued_of_validate hvalidate) hgather
    obtain ⟨u, hasked, hm⟩ := Gathered.exists_usage hadds hvalidate
    exact ⟨u, ⟨gs, hspells, hasked⟩, hm⟩
  · rintro ⟨u, ⟨gs, hspells, hasked⟩, rfl⟩
    have hadds : Gathered.empty.Adds gs
        ⟨gs.filterMap Given.setting?, gs.count .verbose, some u.input⟩ :=
      ⟨rfl, (Nat.zero_add _).symm, hasked.files.symm⟩
    exact ⟨_, gather_of_spells hspells hadds, Gathered.validate_of_askedBy hadds hasked⟩

theorem conforms_parse : Conforms parse :=
  fun u _ h => ⟨u.matches, parse_eq_found_iff.mpr ⟨u, h, rfl⟩, rfl, rfl, rfl, rfl⟩

end BlockLang.CommandLine
