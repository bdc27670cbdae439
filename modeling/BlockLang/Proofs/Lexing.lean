import BlockLang.Proofs.Lookahead
import BlockLang.Proofs.MaximalMunch
import BlockLang.Proofs.TreeReading

/-!
# Texts that are scanned to their end

`Lexes` is scanning without positions: a text is cut into gaps and lexemes that nothing after them
continues. Texts can be put together (`Lexes.append`) and taken apart (`Lexes.exists_append`)
between any two tokens. A text for which this is impossible has an error (`lexes_or_breaks`).
-/

namespace BlockLang

/-- The text consists of gaps and of these tokens, and ends outside comments. -/
inductive Lexes : List Char → List Token → Prop
  | gap {g : List Char} (hg : IsGap g) : Lexes g []
  | token {g rest : List Char} {t : Token} {ts : List Token} (hg : IsGap g) (ht : t.WellSpelled)
      (hends : t.EndsBefore rest) (h : Lexes rest ts) :
      Lexes (g ++ (t.lexeme.toList ++ rest)) (t :: ts)

/-- Scanning the text ends without an error and yields these tokens. -/
def HasTokens (source : String) (word : List Token) : Prop :=
  ∃ ts ending, (Scanner.ofText source).stream = .prepend ts (.done ending) ∧
    ts.map Located.value = word

/-! ### The scanner -/

theorem Lexes.exists_stream {cs : List Char} {word : List Token} (h : Lexes cs word)
    (p : Position) : ∃ ts ending, (Scanner.standing p cs).stream = .prepend ts (.done ending) ∧
      ts.map Located.value = word := by
  induction h generalizing p with
  | @gap g hg =>
    have hnext := Scanner.next_gap hg p []
    rw [List.append_nil] at hnext
    refine ⟨[], p.past g, ?_, rfl⟩
    rw [Scanner.stream_eq, hnext]
    rfl
  | @token g rest t word hg ht hends h ih =>
    obtain ⟨ts, ending, hstream, hvalues⟩ := ih ((p.past g).past t.lexeme.toList)
    refine ⟨⟨p.past g, t⟩ :: ts, ending, ?_, ?_⟩
    · rw [Scanner.stream_eq, Scanner.next_gap hg, Scanner.next_token _ ht hends,
        Scanner.streamFrom, hstream]
      rfl
    · rw [List.map_cons, hvalues]

theorem lexes_of_stream {p : Position} {cs : List Char} {ts : List (Located Token)}
    {ending : Position} (h : (Scanner.standing p cs).stream = .prepend ts (.done ending)) :
    Lexes cs (ts.map Located.value) := by
  induction ts generalizing p cs with
  | nil =>
    have hyields := Scanner.yields_next p cs
    rw [Scanner.stream_eq] at h
    generalize (Scanner.standing p cs).next = call at hyields h
    cases hyields with
    | done hg => exact .gap hg
    | token hg ht hrest => cases h
    | pointed hg hds hrest => cases h
    | badChar hg hc => cases h
    | unclosed hg hbody state => cases h
  | cons t ts ih =>
    have hyields := Scanner.yields_next p cs
    rw [Scanner.stream_eq] at h
    generalize (Scanner.standing p cs).next = call at hyields h
    cases hyields with
    | done hg => cases h
    | @token g rest u hg hu hrest =>
      injection h with hhead htail
      subst hhead
      exact .token hg hu hrest (ih htail)
    | @pointed g ds rest hg hds hrest =>
      injection h with hhead htail
      rw [Scanner.stream_refusing] at htail
      cases ts <;> cases htail
    | badChar hg hc => cases h
    | unclosed hg hbody state => cases h

theorem hasTokens_iff (source : String) (word : List Token) :
    HasTokens source word ↔ Lexes source.toList word := by
  constructor
  · rintro ⟨ts, ending, hstream, rfl⟩
    exact lexes_of_stream hstream
  · intro h
    exact h.exists_stream .start

/-! ### Errors -/

/-- Scanning the text ends with an error. -/
inductive Breaks : List Char → Prop
  | badChar {g rest : List Char} {c : Char} (hg : IsGap g) (hc : BeginsNothing c) :
      Breaks (g ++ c :: rest)
  | unclosed {g body : List Char} (hg : IsGap g) (hbody : Unclosed body) :
      Breaks (g ++ '/' :: '*' :: body)
  | pointed {g ds rest : List Char} (hg : IsGap g) (hds : IsNumeral ds)
      (hrest : ∀ c ∈ rest.head?, c.isDigit = false) : Breaks (g ++ (ds ++ '.' :: rest))
  | token {g rest : List Char} {t : Token} (hg : IsGap g) (ht : t.WellSpelled)
      (hends : t.EndsBefore rest) (h : Breaks rest) : Breaks (g ++ (t.lexeme.toList ++ rest))

theorem lexes_or_breaks (cs : List Char) : (∃ word, Lexes cs word) ∨ Breaks cs := by
  induction hn : cs.length using Nat.strongRecOn generalizing cs with
  | _ n ih =>
    subst hn
    have hyields := Scanner.yields_next .start cs
    generalize (Scanner.standing .start cs).next = call at hyields
    cases hyields with
    | done hg => exact .inl ⟨[], .gap hg⟩
    | @token g rest t hg ht hends =>
      obtain ⟨c, more, hlexeme, -⟩ := Token.exists_lead ht
      have hshorter : rest.length < (g ++ (t.lexeme.toList ++ rest)).length := by
        simp only [hlexeme, List.length_append, List.length_cons]
        omega
      rcases ih rest.length hshorter rest rfl with ⟨word, hrest⟩ | hrest
      · exact .inl ⟨t :: word, .token hg ht hends hrest⟩
      · exact .inr (.token hg ht hends hrest)
    | pointed hg hds hrest => exact .inr (.pointed hg hds hrest)
    | badChar hg hc => exact .inr (.badChar hg hc)
    | unclosed hg hbody state => exact .inr (.unclosed hg hbody)

theorem BeginsNothing.ready {c : Char} (hc : BeginsNothing c) (cs : List Char) :
    Ready (c :: cs) := ⟨hc.blank, fun hopen => hc.mark .slash hopen.1⟩

theorem Breaks.exists_stream {cs : List Char} (h : Breaks cs) (p : Position) :
    ∃ ts e, (Scanner.standing p cs).stream = .prepend ts (.failure e) := by
  induction h generalizing p with
  | @badChar g rest c hg hc =>
    refine ⟨[], ⟨p.past g, .badChar c⟩, ?_⟩
    rw [Scanner.stream_eq, Scanner.next_gap hg, Scanner.next_badChar _ hc (hc.ready rest)]
    rfl
  | @unclosed g body hg hbody =>
    obtain ⟨state, hnext⟩ := Scanner.next_unclosed (p.past g) hbody
    refine ⟨[], ⟨(p.past g).past ('/' :: '*' :: body), .unexpectedEnd⟩, ?_⟩
    rw [Scanner.stream_eq, Scanner.next_gap hg, hnext]
    rfl
  | @pointed g ds rest hg hds hrest =>
    refine ⟨[⟨p.past g, .integer (String.ofList ds)⟩], ⟨(p.past g).past ds, .badChar '.'⟩, ?_⟩
    rw [Scanner.stream_eq, Scanner.next_gap hg, Scanner.next_pointed _ hds hrest,
      Scanner.streamFrom, Scanner.stream_refusing]
    rfl
  | @token g rest t hg ht hends h ih =>
    obtain ⟨ts, e, hstream⟩ := ih ((p.past g).past t.lexeme.toList)
    refine ⟨⟨p.past g, t⟩ :: ts, e, ?_⟩
    rw [Scanner.stream_eq, Scanner.next_gap hg, Scanner.next_token _ ht hends,
      Scanner.streamFrom, hstream]
    rfl

theorem Breaks.not_lexes {cs : List Char} (h : Breaks cs) (word : List Token) :
    ¬Lexes cs word := by
  intro hlexes
  obtain ⟨ts, ending, hstream, -⟩ := hlexes.exists_stream .start
  obtain ⟨us, e, hbreaks⟩ := h.exists_stream .start
  -- One stream cannot end in both ways.
  have hresults := congrArg TokenStream.results (hstream.symm.trans hbreaks)
  rw [TokenStream.results_prepend, TokenStream.results_prepend] at hresults
  have hlast : [Scan.done] = [.failure e] := List.append_inj_right' hresults rfl
  cases hlast

theorem Lexes.unique {cs : List Char} {word word' : List Token} (h : Lexes cs word)
    (h' : Lexes cs word') : word = word' := by
  obtain ⟨ts, ending, hstream, rfl⟩ := h.exists_stream .start
  obtain ⟨us, ending', hstream', rfl⟩ := h'.exists_stream .start
  have hresults := congrArg TokenStream.results (hstream.symm.trans hstream')
  rw [TokenStream.results_prepend, TokenStream.results_prepend] at hresults
  have htokens : ts.map Scan.token = us.map Scan.token := List.append_inj_left' hresults rfl
  rw [(List.map_inj_right fun _ _ => Scan.token.inj).mp htokens]

/-! ### Putting texts together -/

theorem IsGap.append {g cs : List Char} (hg : IsGap g) (hcs : IsGap cs) : IsGap (g ++ cs) := by
  induction hg with
  | nil => exact hcs
  | blank hc h ih => exact .blank hc ih
  | @comment body g hbody h ih =>
    have hassoc : '/' :: '*' :: (body ++ '*' :: '/' :: g) ++ cs =
        '/' :: '*' :: (body ++ '*' :: '/' :: (g ++ cs)) := by simp
    rw [hassoc]
    exact .comment hbody ih

/-- Only the first character counts. -/
theorem Token.endsBefore_congr {t : Token} {a b : List Char} (h : a.head? = b.head?) :
    t.EndsBefore a ↔ t.EndsBefore b := by
  cases t <;> simp [Token.EndsBefore, h]

theorem Token.EndsBefore.append {t : Token} {a b : List Char} (ha : t.EndsBefore a)
    (hb : a = [] → t.EndsBefore b) : t.EndsBefore (a ++ b) := by
  cases a with
  | nil => exact hb rfl
  | cons c a =>
    have hhead : (c :: a).head? = (c :: a ++ b).head? := rfl
    exact (endsBefore_congr hhead).mp ha

theorem Token.EndsBefore.of_append {t : Token} {a b : List Char} (h : t.EndsBefore (a ++ b)) :
    t.EndsBefore a := by
  cases a with
  | nil => exact endsBefore_nil t
  | cons c a =>
    have hhead : (c :: a ++ b).head? = (c :: a).head? := rfl
    exact (endsBefore_congr hhead).mp h

namespace Lexes

theorem eq_nil {cs : List Char} {word : List Token} (h : Lexes cs word) (hcs : cs = []) :
    word = [] := by
  cases h with
  | gap hg => rfl
  | token hg ht hends h =>
    obtain ⟨c, more, hlexeme, -⟩ := Token.exists_lead ht
    simp [hlexeme] at hcs

theorem after_gap {g cs : List Char} {word : List Token} (hg : IsGap g) (h : Lexes cs word) :
    Lexes (g ++ cs) word := by
  cases h with
  | gap hcs => exact .gap (hg.append hcs)
  | token hcs ht hends h =>
    rw [← List.append_assoc]
    exact .token (hg.append hcs) ht hends h

/-- A text may follow another whose last token it does not continue. -/
theorem append {a b : List Char} {u v : List Token} (ha : Lexes a u) (hb : Lexes b v)
    (hlast : ∀ t ∈ u.getLast?, t.EndsBefore b) : Lexes (a ++ b) (u ++ v) := by
  induction ha with
  | gap hg => exact hb.after_gap hg
  | @token g rest t ts hg ht hends h ih =>
    have hends' : t.EndsBefore (rest ++ b) := by
      apply hends.append
      intro hrest
      apply hlast
      rw [h.eq_nil hrest]
      rfl
    have hlast' : ∀ u ∈ ts.getLast?, u.EndsBefore b := by
      intro u hu
      apply hlast
      rw [List.getLast?_cons, Option.mem_def.mp hu]
      rfl
    rw [List.append_assoc, List.append_assoc]
    exact .token hg ht hends' (ih hlast')

/-- Between any two tokens the text can be taken apart. -/
theorem exists_append {cs : List Char} {u v : List Token} (h : Lexes cs (u ++ v)) :
    ∃ a b, cs = a ++ b ∧ Lexes a u ∧ Lexes b v := by
  induction u generalizing cs with
  | nil => exact ⟨[], cs, rfl, .gap .nil, h⟩
  | cons t u ih =>
    cases h with
    | @token g rest _ _ hg ht hends h =>
      obtain ⟨a, b, rfl, ha, hb⟩ := ih h
      refine ⟨g ++ (t.lexeme.toList ++ a), b, ?_, .token hg ht hends.of_append ha, hb⟩
      simp only [List.append_assoc]

end Lexes

/-! ### Reading a text by its tokens -/

theorem value?_readProgram_of_hasTokens {source : String} {tree : ProgramTree}
    (h : HasTokens source tree.tokens) : (readProgram source).value? = tree.elaborate := by
  obtain ⟨ts, ending, hstream, hspells⟩ := h
  have hsettle : (Reader.new.settle (.goTo .top)).value? = some (Reader.new, .top) := rfl
  rw [value?_readProgram, hstream, Reader.value?_run, hsettle, Option.bind_some]
  exact Reader.reads_program tree hspells

theorem readProgram_eq_ok_iff_hasTokens (source : String) (p : Program) :
    (readProgram source).result = .ok p ↔
      ∃ tree : ProgramTree, HasTokens source tree.tokens ∧ tree.elaborate = some p := by
  constructor
  · intro h
    obtain ⟨ts, ending, tree, hstream, hspells, htree⟩ := (readProgram_eq_ok_iff source p).mp h
    exact ⟨tree, ⟨ts, ending, hstream, hspells⟩, htree⟩
  · rintro ⟨tree, hsource, htree⟩
    rw [Traced.result_eq_ok_iff, value?_readProgram_of_hasTokens hsource, htree]

end BlockLang
