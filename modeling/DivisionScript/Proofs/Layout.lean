import DivisionScript.Proofs.Source
import DivisionScript.Proofs.Token.Spacing

/-!
# Layout

The layout of a program is free. The white space and the comments between the tokens of a text can
be replaced by any white space, and nothing but lines changes: the text has the same tokens, and it
is a program if it was one before, of the same tree.
-/

namespace DivisionScript

open Grammar

variable {source : String} {line : Nat} {body ts us : List Token}

theorem Token.collect_map_ok (ts : List Token) : collect (ts.map .ok) = .ok ts := by
  induction ts with
  | nil => rfl
  | cons t ts ih =>
    rw [List.map_cons, collect, ih]
    rfl

/-- The tokens of a scan without errors are spelled by their lexemes, up to the end of the text. -/
theorem Token.spelled_of_scanAll (h : scanAll source = .ok ts) :
    ∃ body line, ts = body ++ [⟨.endOfText, "", line⟩] ∧
      (∀ t ∈ body, t.kind ≠ .endOfText ∧ t.Spelled) := by
  have hscan : scan source = ts.map .ok := map_of_collect h
  have hmunches := munches_scanFrom 1 source.toList
  obtain ⟨body, stop, rfl, hstop, hbody⟩ := endsOnce_of_tiles (tiles_of_munches hmunches) hscan
  have hlast := getLast?_of_munches hmunches
  rw [show scanFrom 1 source.toList = _ from hscan, List.map_append, List.map_singleton,
    List.getLast?_concat] at hlast
  cases Except.ok.inj (Option.some.inj hlast)
  refine ⟨body, _, rfl, fun t ht => ?_⟩
  have hkind : t.kind ≠ .endOfText := fun hkind => hbody t ht (congrArg TokenKind.shape hkind)
  have hmem : .ok t ∈ scanFrom 1 source.toList := by
    rw [show scanFrom 1 source.toList = _ from hscan]
    exact List.mem_map_of_mem (List.mem_append_left _ ht)
  rcases lexical_of_munches hmunches hmem with ⟨-, hend⟩ | hspelled
  · exact absurd hend hkind
  · exact ⟨hkind, hspelled⟩

theorem Token.endsOnce_of_scanAll (h : scanAll source = .ok ts) : EndsOnce ts :=
  endsOnce_of_tiles (tiles_of_munches (munches_scanFrom 1 source.toList)) (map_of_collect h)

/-- What a text without lexical errors spells is what its tokens spell. -/
theorem Source.program_of_scanAll (h : Token.scanAll source = .ok ts) :
    (Source.program source).result = (Program.ofTokens ts).1.mapError .syntactic := by
  have hscanned : (Source.tokens source).result = .ok ts := h
  rw [Source.program]
  dsimp only
  rw [hscanned]
  rfl

/-- A text without lexical errors spells the program that the grammar derives from its tokens. -/
theorem Source.program_of_derives {p : Program} (h : Token.scanAll source = .ok ts)
    (hderives : DerivesProgram maxArity maxNesting ts p) :
    (Source.program source).result = .ok p := by
  rw [program_of_scanAll h, (ofTokens_iff_derives (Token.endsOnce_of_scanAll h)).mpr hderives]
  rfl

theorem Grammar.alike_of_content (h : us.map Token.content = ts.map Token.content) :
    Alike (fun _ => 0) ts us := by
  rw [← List.forall₂_eq_eq_eq, List.forall₂_map_left_iff, List.forall₂_map_right_iff] at h
  refine h.flip.imp fun t u hsame => ?_
  exact ⟨congrArg Prod.fst hsame, congrArg Prod.snd hsame, fun _ => rfl⟩

/-- Tokens that differ in their lines alone spell the same program, up to its lines, or none. -/
theorem Program.ofTokens_alike (hts : EndsOnce ts) (hus : EndsOnce us)
    (h : us.map Token.content = ts.map Token.content) :
    (∃ e e', (ofTokens ts).1 = .error e ∧ (ofTokens us).1 = .error e') ∨
    ∃ p q, (ofTokens ts).1 = .ok p ∧ (ofTokens us).1 = .ok q ∧
      q.relabel (fun _ => 0) = p.relabel (fun _ => 0) := by
  cases hp : (ofTokens ts).1 with
  | ok p =>
    obtain ⟨q, hq, hsame⟩ := ((ofTokens_iff_derives hts).mp hp).alike (alike_of_content h)
    exact .inr ⟨p, q, rfl, (ofTokens_iff_derives hus).mpr hq, hsame⟩
  | error e =>
    cases hq : (ofTokens us).1 with
    | error e' => exact .inl ⟨e, e', rfl, rfl⟩
    | ok q =>
      obtain ⟨p, hp', -⟩ := ((ofTokens_iff_derives hus).mp hq).alike (alike_of_content h.symm)
      cases hp.symm.trans ((ofTokens_iff_derives hts).mpr hp')

/-- The layout of a program is free. If the lexemes of the tokens of a text without lexical errors,
all but the end, are joined in order with white space between each two, the new text has no lexical
errors either, and the same tokens up to their lines. Either neither text is a program, for a syntax
error, or both are, and the programs differ in their lines alone. -/
theorem layout_changes_nothing (h : Token.scanAll source = .ok ts) :
    ∃ body stop, ts = body ++ [stop] ∧ stop.kind = .endOfText ∧ (∀ t ∈ body, t.kind ≠ .endOfText) ∧
      ∀ text, Spaced body text →
        (∃ us, Token.scanAll (String.ofList text) = .ok us ∧
          us.map Token.content = ts.map Token.content) ∧
        ((∃ e e', (Source.program source).result = .error (.syntactic e) ∧
            (Source.program (String.ofList text)).result = .error (.syntactic e')) ∨
          ∃ p q, (Source.program source).result = .ok p ∧
            (Source.program (String.ofList text)).result = .ok q ∧
            q.relabel (fun _ => 0) = p.relabel (fun _ => 0)) := by
  obtain ⟨body, line, rfl, hbody⟩ := Token.spelled_of_scanAll h
  refine ⟨body, _, rfl, rfl, fun t ht => (hbody t ht).1, fun text htext => ?_⟩
  obtain ⟨us, last, hmunches, hcontent⟩ := htext.munches (fun t ht => (hbody t ht).2) 1
  let stop (line : Nat) : Token := ⟨.endOfText, "", line⟩
  have hscan : Token.scanAll (String.ofList text) = .ok (us ++ [stop last]) := by
    rw [Token.scanAll, Token.scan, String.toList_ofList, Token.scanFrom_of_munches hmunches,
      Token.collect_map_ok]
  have hsame : (us ++ [stop last]).map Token.content = (body ++ [stop line]).map Token.content := by
    rw [List.map_append, List.map_append, hcontent]
    rfl
  refine ⟨⟨_, hscan, hsame⟩, ?_⟩
  rw [Source.program_of_scanAll h, Source.program_of_scanAll hscan]
  rcases Program.ofTokens_alike (Token.endsOnce_of_scanAll h) (Token.endsOnce_of_scanAll hscan)
    hsame with ⟨e, e', he, he'⟩ | ⟨p, q, hp, hq, hpq⟩
  · rw [he, he']
    exact .inl ⟨e, e', rfl, rfl⟩
  · rw [hp, hq]
    exact .inr ⟨p, q, rfl, rfl, hpq⟩

/-- A comment between a slash and its right operand gives way to a line feed. -/
theorem comment_gives_way :
    let source := "dynamic division print x/ //z\ny;"
    let text := "dynamic\tdivision\r\nprint x /\n\ny ;"
    let body : List Token :=
      [⟨.keyword .dynamic, "dynamic", 1⟩, ⟨.keyword .division, "division", 1⟩,
        ⟨.keyword .print, "print", 1⟩, ⟨.identifier, "x", 1⟩, ⟨.symbol .slash, "/", 1⟩,
        ⟨.identifier, "y", 2⟩, ⟨.symbol .semicolon, ";", 2⟩]
    let printed : Stmt := .print 0 (.term (.identifier "x") .div (.identifier "y"))
    Token.scanAll source = .ok (body ++ [⟨.endOfText, "", 2⟩]) ∧ Spaced body text.toList ∧
    ∃ q, (Source.program text).result = .ok q ∧ q.relabel (fun _ => 0) = ⟨[], [printed]⟩ := by
  intro source text body printed
  have hscan : Token.scanAll source = .ok (body ++ [⟨.endOfText, "", 2⟩]) := by
    simp [Token.scanAll, Token.collect, Except.map, Token.scan, Token.scanFrom, Token.lineFeeds,
      Piece.first, Piece.isSeparator, Piece.comment, Piece.word, Piece.isWordStart,
      Piece.isWordPart, Piece.symbol?, Piece.cut, Piece.wordKind, Keyword.ofSpelling?, Keyword.all,
      Keyword.spelling, Symbol.spelling, source, body]
  have hspaced : Spaced body text.toList := by
    have hjoined : Spaced body ("dynamic".toList ++ (['\t'] ++ ("division".toList ++
        (['\r', '\n'] ++ ("print".toList ++ ([' '] ++ ("x".toList ++ ([' '] ++ ("/".toList ++
        (['\n', '\n'] ++ ("y".toList ++ ([' '] ++ (";".toList ++ ([] ++ [])))))))))))))) :=
      .cons (by simp) (by simp) <| .cons (by simp) (by simp) <| .cons (by simp) (by simp) <|
        .cons (by simp) (by simp) <| .cons (by simp) (by simp) <| .cons (by simp) (by simp) <|
        .cons (by simp) (by simp) .nil
    simpa [text] using hjoined
  have hderives : DerivesProgram 255 1024 (body ++ [⟨.endOfText, "", 2⟩])
      ⟨[], [.print 1 (.term (.identifier "x") .div (.identifier "y"))]⟩ := by
    have hname (name : String) (line : Nat) :
        Derives .power 1022 [⟨.identifier, name, line⟩] (.identifier name) :=
      .powerOne (.unaryOne (.identifier rfl))
    have hterm := Derives.term (t := ⟨.symbol .slash, "/", 1⟩) .div (.termOne (hname "x" 1)) rfl
      (hname "y" 2)
    have hvalue : Derives .expression 1023 _ _ :=
      .of_sum (.sumOne hterm)
    have hprint : DerivesStatement 255 1024
        (⟨.keyword .print, "print", 1⟩ :: (_ ++ [⟨.symbol .semicolon, ";", 2⟩])) _ :=
      .print rfl hvalue rfl
    have hprogram : DerivesProgram 255 1024
        ([] ++ ⟨.keyword .dynamic, "dynamic", 1⟩ :: ⟨.keyword .division, "division", 1⟩ ::
          (_ ++ [⟨.endOfText, "", 2⟩])) _ :=
      .mk .absent rfl rfl (.cons hprint .nil) rfl
    exact hprogram
  have hresult : (Source.program source).result =
      .ok ⟨[], [.print 1 (.term (.identifier "x") .div (.identifier "y"))]⟩ :=
    Source.program_of_derives hscan hderives
  refine ⟨hscan, hspaced, ?_⟩
  obtain ⟨body', stop, hbody, -, -, hlayout⟩ := layout_changes_nothing hscan
  obtain ⟨rfl, -⟩ := List.append_inj' hbody rfl
  rcases (hlayout _ hspaced).2 with ⟨e, e', he, -⟩ | ⟨p, q, hp, hq, hsame⟩
  · cases hresult.symm.trans he
  · cases hresult.symm.trans hp
    rw [String.ofList_toList] at hq
    exact ⟨q, hq, hsame⟩

end DivisionScript
