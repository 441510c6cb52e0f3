import DivisionScript.Proofs.Walker.Expression

/-!
# Walker — Statement

The walks of statements and of the blocks they form follow the rules of the grammar.
-/

namespace DivisionScript

open Grammar

namespace Walker

section follows

variable {stream : TokenStream} {depth : Nat}

section items

variable {α : Type} {item : Rules → Attempt α} {overflow : Rules → Attempt (List α)}
  {rule : Rule α} {cause : SyntaxCause}
  (hitem : ∀ ts, Follows stream depth ts item (tracked (rule ts)))
  (hoverflow : ∀ ts, Follows stream depth ts overflow
    (throw ⟨cause, ts⟩ : Tracked (Read (List α) ts.length)))
include hitem hoverflow

theorem follows_separated (room : Nat) (ts : List Token) :
    Follows stream depth ts
      (fun rules => separated stream.tokens (item rules) (overflow rules) room)
      (tracked (Grammar.separated rule cause room ts)) := by
  induction room generalizing ts with
  | zero => exact hoverflow ts
  | succ room ih =>
    refine .read (hitem ts) fun first _ _ => ?_
    obtain ⟨a, ts, hshorter⟩ := first
    refine .accept (fun t rest _ hts ht => ?_) fun hno => ?_
    · subst hts
      rw [accept?_cons (b := ()) (by rw [ht]; rfl)]
      exact .read (.next (r := ⟨(), rest, _⟩) (ih rest)) fun _ _ _ => .done rfl
    · have hcomma (other : TokenKind.Shape) (hother : other ≠ .symbol .comma) :
          comma other = none := by
        rw [comma]
        exact hother
      rw [accept?_eq_none (declines_of_nextIs hno hcomma)]
      exact .done rfl

theorem follows_parenthesized (openPhrase closePhrase : String) (ts : List Token) :
    Follows stream depth ts
      (fun rules =>
        parenthesized stream.tokens (item rules) (overflow rules) openPhrase closePhrase)
      (tracked (Grammar.parenthesized rule cause openPhrase closePhrase ts)) := by
  rw [Grammar.parenthesized]
  refine .read (follows_consume _ _) fun opening _ _ => ?_
  refine .check (fun hyes => ?_) fun hno => ?_
  · rw [if_pos hyes]
    exact .read (.next (follows_consume _ _)) fun _ _ _ => .done rfl
  · rw [if_neg (by simp [hno])]
    refine .read (.next (follows_separated hitem hoverflow _ _)) fun items _ _ => ?_
    exact .read (.next (follows_consume _ _)) fun _ _ _ => .done rfl

end items

/-- A repetition that goes on until a token closes it, or the end. -/
theorem follows_repeated {α : Type} {again : Rules → Attempt (List α)} {item : Rules → Attempt α}
    {rule : TrackedRule α} {items : OptionalTrackedRule (List α)} {closing : TokenKind.Shape}
    (hagain : ∀ rules, again (rules.unfold stream.tokens) =
      repeated stream.tokens (again rules) (item rules) closing)
    (hitem : ∀ ts, Follows stream depth ts item (rule ts))
    (hnil : items [] = pure (.nothing [] []))
    (hcons : ∀ t rest, items (t :: rest) =
      if t.shape = closing then
        pure (.nothing [] (t :: rest))
      else do
        let first ← rule (t :: rest)
        let more ← items first.rest
        pure ((first.afterOptional more).give (first.value :: more.value)).loosen)
    {ts : List Token} {size : Nat} (hsize : ts.length ≤ size) :
    Follows stream depth ts again (items ts) := by
  induction size generalizing ts with
  | zero =>
    rw [List.eq_nil_of_length_eq_zero (Nat.le_zero.mp hsize), hnil]
    exact .unfold hagain (.move (moves_closed _) (List.suffix_refl _) (.done rfl))
  | succ size ih =>
    refine .unfold hagain (.move (moves_closed _) (List.suffix_refl _) ?_)
    cases ts with
    | nil =>
      rw [hnil]
      exact .done rfl
    | cons t rest =>
      rw [hcons]
      by_cases ht : t.shape = closing
      · rw [nextIs_cons_true.mpr ht, if_pos ht]
        exact .done rfl
      · rw [nextIs_cons_false.mpr ht, if_neg ht]
        refine .bind (hitem _) fun first => ?_
        have hfirst : first.rest.length ≤ size :=
          Nat.le_of_lt_succ (Nat.lt_of_lt_of_le first.shorter hsize)
        exact .bind (ih hfirst) fun _ => .done rfl

theorem follows_tagName (ts : List Token) :
    Follows stream depth ts (fun _ => tagName stream.tokens) (tracked (Grammar.tagName ts)) := by
  refine .accept (fun t rest _ hts ht => ?_) fun hnumber => ?_
  · subst hts
    rw [Grammar.tagName, ht]
    exact .done rfl
  refine .accept (fun t rest _ hts ht => ?_) fun hstring => ?_
  · subst hts
    rw [Grammar.tagName, ht]
    exact .done rfl
  have hreject : Grammar.tagName ts = reject (.expected "'number' or 'string' after 'as'") ts := by
    cases ts with
    | nil => rfl
    | cons t rest =>
      rw [Grammar.tagName]
      split
      · next ht => simp [nextIs, ht] at hnumber
      · next ht => simp [nextIs, ht] at hstring
      · rfl
  rw [hreject]
  exact follows_refuse rfl

theorem follows_typeTag (ts : List Token) :
    Follows stream depth ts (fun _ => typeTag stream.tokens) (tracked (Grammar.typeTag ts)) := by
  refine .accept (fun t rest _ hts ht => ?_) fun hno => ?_
  · subst hts
    rw [Grammar.typeTag, if_pos ht]
    exact .readMap (follows_tagName rest) fun _ => ⟨rfl, rfl⟩
  · have hnone : Grammar.typeTag ts = .ok (.nothing none ts) := by
      cases ts with
      | nil => rfl
      | cons t rest => exact if_neg (nextIs_cons_false.mp hno)
    rw [hnone]
    exact .done rfl

theorem follows_assignment (line : Nat) (ts : List Token) :
    Follows stream depth ts (fun rules => assignment stream.tokens rules line)
      (tracked (Grammar.assignment (maxNesting - depth) line ts)) := by
  refine .identifier (follows_consume _ _) fun name _ _ => ?_
  refine .read (.next (follows_consume _ _)) fun equals _ _ => ?_
  refine .read (.next (follows_expression _)) fun value _ _ => ?_
  refine .read (.nextOptional (follows_typeTag _)) fun tag _ _ => ?_
  exact .read (.next (follows_consume _ _)) fun _ _ _ => .done rfl

theorem follows_printStatement (line : Nat) (ts : List Token) :
    Follows stream depth ts (fun rules => printStatement stream.tokens rules line)
      (tracked (Grammar.printStatement (maxNesting - depth) line ts)) := by
  refine .read (follows_expression _) fun value _ _ => ?_
  exact .read (.next (follows_consume _ _)) fun _ _ _ => .done rfl

theorem follows_prompt (ts : List Token) :
    Follows stream depth ts (fun _ => prompt stream.tokens) (tracked (Grammar.prompt ts)) := by
  refine .peek ?_
  cases ts with
  | nil =>
    rw [List.headD_nil, TokenStream.kind_stop]
    exact .done rfl
  | cons t rest =>
    rw [Grammar.prompt, List.headD_cons]
    cases t.kind with
    | string text => exact .advance (.done rfl)
    | _ => exact .done rfl

theorem follows_inputStatement (line : Nat) (ts : List Token) :
    Follows stream depth ts (fun _ => inputStatement stream.tokens line)
      (tracked (Grammar.inputStatement line ts)) := by
  refine .identifier (follows_consume _ _) fun name _ _ => ?_
  refine .read (.nextOptional (follows_prompt _)) fun shown _ _ => ?_
  exact .read (.next (follows_consume _ _)) fun _ _ _ => .done rfl

theorem follows_loopHeader (ts : List Token) :
    Follows stream depth ts (loopHeader stream.tokens)
      (tracked (Grammar.loopHeader (maxNesting - depth) ts)) := by
  refine .identifier (follows_consume _ _) fun name _ _ => ?_
  refine .read (.next (follows_consume _ _)) fun fromWord _ _ => ?_
  refine .read (.next (follows_expression _)) fun start _ _ => ?_
  refine .read (.next (follows_consume _ _)) fun toWord _ _ => ?_
  exact .read (.next (follows_expression _)) fun _ _ _ => .done rfl

theorem follows_randStatement (line : Nat) (ts : List Token) :
    Follows stream depth ts (fun rules => randStatement stream.tokens rules line)
      (tracked (Grammar.randStatement (maxNesting - depth) line ts)) := by
  refine .identifier (follows_consume _ _) fun name _ _ => ?_
  refine .read (.next (follows_consume _ _)) fun fromWord _ _ => ?_
  refine .read (.next (follows_expression _)) fun least _ _ => ?_
  refine .read (.next (follows_consume _ _)) fun toWord _ _ => ?_
  refine .read (.next (follows_expression _)) fun greatest _ _ => ?_
  exact .read (.next (follows_consume _ _)) fun _ _ _ => .done rfl

theorem follows_functionHeader (ts : List Token) :
    Follows stream depth ts (fun _ => functionHeader stream.tokens)
      (tracked (Grammar.functionHeader ts)) := by
  refine .identifier (follows_consume _ _) fun name hname hts => ?_
  obtain ⟨hread, -⟩ := reads_expect.mp hname
  rw [hread] at hts
  refine .move (fun _ => moves_previous hts) (List.suffix_refl _) ?_
  refine .read (.next (follows_parenthesized (fun _ => follows_consume _ _) ?_ _ _ _))
    fun params _ _ => ?_
  · exact fun _ => follows_refuseAt rfl
  refine .read (.next (follows_consume _ _)) fun returns _ _ => ?_
  exact .identifier (.next (follows_consume _ _)) fun _ _ _ => .done rfl

theorem follows_callStatement (line : Nat) (ts : List Token) :
    Follows stream depth ts (fun rules => callStatement stream.tokens rules line)
      (tracked (Grammar.callStatement (maxNesting - depth) line ts)) := by
  refine .identifier (follows_consume _ _) fun name _ _ => ?_
  refine .read (.next (follows_parenthesized follows_expression ?_ _ _ _)) fun args _ _ => ?_
  · exact fun _ => follows_refuse rfl
  exact .read (.next (follows_consume _ _)) fun _ _ _ => .done rfl

section blocks

variable {S : TrackedRule Stmt}
  (hstatement : ∀ ts, Follows stream depth ts Rules.statement (S ts))
include hstatement

theorem follows_statements (ts : List Token) :
    Follows stream depth ts Rules.statements (Grammar.statements S ts) := by
  refine follows_repeated (fun _ => rfl) hstatement ?_ ?_ (Nat.le_refl _)
  · rw [Grammar.statements]
  · intro t rest
    rw [Grammar.statements]

theorem follows_block (place : String) (ts : List Token) :
    Follows stream depth ts (fun rules => block stream.tokens rules place)
      (Grammar.block S place ts) := by
  refine .bind (follows_consume _ _) fun opening => ?_
  refine .bind (.trackedNextOptional (follows_statements hstatement _)) fun body => ?_
  exact .bind (.next (follows_consume _ _)) fun _ => .done rfl

theorem follows_elseBranch (ts : List Token) :
    Follows stream depth ts (elseBranch stream.tokens) (Grammar.elseBranch S ts) := by
  refine .accept (fun t rest _ hts ht => ?_) fun hno => ?_
  · subst hts
    rw [Grammar.elseBranch, if_pos ht]
    refine .check (fun hyes => ?_) fun hno => ?_
    · rw [if_pos hyes]
      exact .bind (hstatement rest) fun _ => .done rfl
    · rw [if_neg (by simp [hno]), bind_pure_comp]
      exact (follows_block hstatement _ rest).map fun _ => ⟨rfl, rfl⟩
  · have hnone : Grammar.elseBranch S ts = pure (.nothing [] ts) := by
      cases ts with
      | nil => rfl
      | cons t rest => exact if_neg (nextIs_cons_false.mp hno)
    rw [hnone]
    exact .done rfl

theorem follows_ifStatement (line : Nat) (ts : List Token) :
    Follows stream depth ts (fun rules => ifStatement stream.tokens rules line)
      (Grammar.ifStatement (maxNesting - depth) line S ts) := by
  refine .bind (follows_expression _) fun condition => ?_
  refine .bind (.trackedNext (follows_block hstatement _ _)) fun thenBody => ?_
  exact .bind (.trackedNextOptional (follows_elseBranch hstatement _)) fun _ => .done rfl

theorem follows_loopStatement (line : Nat) (ts : List Token) :
    Follows stream depth ts (fun rules => loopStatement stream.tokens rules line)
      (Grammar.loopStatement (maxNesting - depth) line S ts) := by
  refine .bind (follows_loopHeader _) fun header => ?_
  exact .bind (.trackedNext (follows_block hstatement _ _)) fun _ => .done rfl

theorem follows_function (line : Nat) (ts : List Token) :
    Follows stream depth ts (fun rules => function stream.tokens rules line)
      (Grammar.defineStatement line S ts) := by
  refine .bind (follows_functionHeader _) fun header => ?_
  exact .bind (.trackedNext (follows_block hstatement _ _)) fun _ => .done rfl

theorem follows_simpleStatement (ts : List Token) :
    Follows stream depth ts (simpleStatement stream.tokens)
      (openedStatement (maxNesting - depth) S ts) := by
  refine .peek ?_
  refine .accept (fun t rest _ hts ht => ?_) fun hprint => ?_
  · subst hts
    rw [openedStatement, ht]
    exact .reach ((follows_printStatement _ _).map fun _ => ⟨rfl, rfl⟩)
  refine .accept (fun t rest _ hts ht => ?_) fun hinput => ?_
  · subst hts
    rw [openedStatement, ht]
    exact .reach ((follows_inputStatement _ _).map fun _ => ⟨rfl, rfl⟩)
  refine .accept (fun t rest _ hts ht => ?_) fun hif => ?_
  · subst hts
    rw [openedStatement, ht]
    exact .reach ((follows_ifStatement hstatement _ _).map fun _ => ⟨rfl, rfl⟩)
  refine .accept (fun t rest _ hts ht => ?_) fun hloop => ?_
  · subst hts
    rw [openedStatement, ht]
    exact .reach ((follows_loopStatement hstatement _ _).map fun _ => ⟨rfl, rfl⟩)
  refine .accept (fun t rest _ hts ht => ?_) fun hrand => ?_
  · subst hts
    rw [openedStatement, ht]
    exact .reach ((follows_randStatement _ _).map fun _ => ⟨rfl, rfl⟩)
  refine .accept (fun t rest _ hts ht => ?_) fun hfunc => ?_
  · subst hts
    rw [openedStatement, ht]
    exact .reach ((follows_function hstatement _ _).map fun _ => ⟨rfl, rfl⟩)
  refine .accept (fun t rest _ hts ht => ?_) fun hcall => ?_
  · subst hts
    rw [openedStatement, ht]
    exact .reach ((follows_callStatement _ _).map fun _ => ⟨rfl, rfl⟩)
  refine .check (fun hname => ?_) fun hname => ?_
  · cases ts with
    | nil => contradiction
    | cons t rest =>
      rw [openedStatement, nextIs_cons_true.mp hname]
      exact .reach (follows_assignment _ _)
  cases ts with
  | nil => exact follows_refuseAt rfl
  | cons t rest =>
    rw [openedStatement]
    refine .reach ?_
    rw [nextIs_cons_false] at hprint hinput hif hloop hrand hfunc hcall hname
    split
    all_goals first | contradiction | exact follows_refuseAt rfl

end blocks

theorem follows_statement {levels : Nat} (hlevels : maxNesting - depth = levels)
    (ts : List Token) :
    Follows stream depth ts Rules.statement (Grammar.statement levels ts) := by
  refine .unfold (fun _ => rfl) ?_
  induction levels generalizing depth ts with
  | zero => exact follows_nested_full (Nat.le_of_sub_eq_zero hlevels)
  | succ levels ih =>
    have hdepth : depth < maxNesting := by omega
    have hmore : maxNesting - (depth + 1) = levels := by omega
    have hsimple := follows_simpleStatement (fun ts => .unfold (fun _ => rfl) (ih hmore ts)) ts
    rw [hmore] at hsimple
    exact .nested hdepth hsimple

end follows

end Walker

end DivisionScript
