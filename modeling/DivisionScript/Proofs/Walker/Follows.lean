import DivisionScript.Proofs.Walker.Rules

/-!
# Walker — Follows

What it means that a walk ends, and that it follows a rule of the grammar: over a token stream it
does from some tokens on what the rule says of them. It ends without a trap, yields the same value
or the same error, stands before the tokens that the rule leaves, and has as many rules open as
before. There is one lemma for each way in which walks and rules are put together, so that the proof
for a rule is the rule read line by line.
-/

namespace DivisionScript

open Grammar

namespace Walker

/-! ## Walks that end -/

/-- Once the rules have been put in often enough, the walk ends without a trap: with this value or
this error, and in this place. -/
def Ends {α : Type} (tokens : List Token) (walk : Rules → Attempt α) (s : Walker)
    (result : Except SyntaxError α) (s' : Walker) : Prop :=
  ∃ n, ∀ m, n ≤ m → Moves (walk (unfolded tokens m)).run s result s'

section ends

variable {α β : Type} {tokens : List Token} {s mid s' : Walker} {result : Except SyntaxError α}

theorem Ends.pure (a : α) (s : Walker) : Ends tokens (fun _ => pure a) s (.ok a) s :=
  ⟨0, fun _ _ => rfl⟩

theorem Ends.throw (e : SyntaxError) (s : Walker) :
    Ends tokens (fun _ => (throw e : Attempt α)) s (.error e) s :=
  ⟨0, fun _ _ => rfl⟩

/-- A move as part of a walk. -/
theorem Ends.move {move : Move β} {f : β → Rules → Attempt α} {b : β} (hmove : Moves move s b mid)
    (hf : Ends tokens (f b) mid result s') :
    Ends tokens (fun rules => liftM move >>= fun b => f b rules) s result s' := by
  obtain ⟨n, hn⟩ := hf
  refine ⟨n, fun m hm => ?_⟩
  have hlift : Moves (liftM move : Attempt β).run s (.ok b) mid := hmove.map Except.ok
  exact hlift.bind (hn m hm)

theorem Ends.ok {x : Rules → Attempt β} {f : β → Rules → Attempt α} {b : β}
    (hx : Ends tokens x s (.ok b) mid) (hf : Ends tokens (f b) mid result s') :
    Ends tokens (fun rules => x rules >>= fun b => f b rules) s result s' := by
  obtain ⟨k, hk⟩ := hx
  obtain ⟨n, hn⟩ := hf
  refine ⟨max k n, fun m hm => ?_⟩
  have hfirst := hk m (Nat.le_trans (Nat.le_max_left k n) hm)
  exact Moves.bind hfirst (hn m (Nat.le_trans (Nat.le_max_right k n) hm))

theorem Ends.error {x : Rules → Attempt β} {f : β → Rules → Attempt α} {e : SyntaxError}
    (hx : Ends tokens x s (.error e) mid) :
    Ends tokens (fun rules => x rules >>= fun b => f b rules) s (.error e) mid := by
  obtain ⟨n, hn⟩ := hx
  exact ⟨n, fun m hm => Moves.bind (hn m hm) (.pure ..)⟩

/-- A rule ends if it does with the rules put in once. -/
theorem Ends.unfold {x body : Rules → Attempt α}
    (hx : ∀ rules, x (rules.unfold tokens) = body rules) (h : Ends tokens body s result s') :
    Ends tokens x s result s' := by
  obtain ⟨n, hn⟩ := h
  refine ⟨n + 1, fun m hm => ?_⟩
  cases m with
  | zero => contradiction
  | succ m =>
    rw [unfolded, hx]
    exact hn m (Nat.le_of_succ_le_succ hm)

/-- The rules put in once end if the rule does. -/
theorem Ends.fold {x body : Rules → Attempt α}
    (hx : ∀ rules, x (rules.unfold tokens) = body rules) (h : Ends tokens x s result s') :
    Ends tokens body s result s' := by
  obtain ⟨n, hn⟩ := h
  refine ⟨n, fun m hm => ?_⟩
  have hmore := hn (m + 1) (Nat.le_succ_of_le hm)
  rw [unfolded, hx] at hmore
  exact hmore

end ends

/-! ## Walks and rules -/

section follows

variable {α β : Type} {bound size : Nat}

/-- What a rule says: the value or the error, and the tokens it leaves. A rejection leaves those
from the offending token on. -/
def verdict (stop : Token) :
    EStateM.Result Rejection (Array Milestone) (Read α bound) → Except SyntaxError α × List Token
  | .ok r _ => (.ok r.value, r.rest)
  | .error r _ => (.error (r.toError stop), r.rest)

/-- Before the tokens `ts` of the stream and with so many rules open, the walk does what the rule
says. -/
def Follows (stream : TokenStream) (depth : Nat) (ts : List Token)
    (walk : Rules → Attempt α) (x : Tracked (Read α bound)) : Prop :=
  ts <:+ stream.body → ∀ log, (verdict stream.stop (x log)).2 <:+ ts ∧
    Ends stream.tokens walk (stream.before ts depth) (verdict stream.stop (x log)).1
      (stream.before (verdict stream.stop (x log)).2 depth)

variable {stream : TokenStream} {depth line : Nat} {ts : List Token}
  {walk yes no : Rules → Attempt α} {x : Tracked (Read α bound)} {cause : SyntaxCause}
  {shape : TokenKind.Shape} {phrase : String}

namespace Follows

theorem bind {next : α → Rules → Attempt β} {f : Read α bound → Tracked (Read β size)}
    (hx : Follows stream depth ts walk x)
    (hf : ∀ r, Follows stream depth r.rest (next r.value) (f r)) :
    Follows stream depth ts (fun rules => walk rules >>= fun a => next a rules) (x >>= f) := by
  intro hts log
  obtain ⟨hrest, hends⟩ := hx hts log
  cases hlog : x log with
  | error r mid =>
    rw [hlog] at hrest hends
    rw [bind_error hlog]
    exact ⟨hrest, hends.error⟩
  | ok r mid =>
    rw [hlog] at hrest hends
    rw [bind_ok hlog]
    obtain ⟨hlast, hnext⟩ := hf r (hrest.trans hts) mid
    exact ⟨hlast.trans hrest, hends.ok hnext⟩

/-- Goes on after a reading. What was read, and where, may matter for what follows. -/
theorem read {x : Except Rejection (Read α bound)} {next : α → Rules → Attempt β}
    {f : Read α bound → Except Rejection (Read β size)}
    (hx : Follows stream depth ts walk (tracked x))
    (hf : ∀ r, Reads x r.value r.rest → ts <:+ stream.body →
      Follows stream depth r.rest (next r.value) (tracked (f r))) :
    Follows stream depth ts (fun rules => walk rules >>= fun a => next a rules)
      (tracked (x >>= f)) := by
  intro hts log
  obtain ⟨hrest, hends⟩ := hx hts log
  cases x with
  | error r => exact ⟨hrest, hends.error⟩
  | ok r =>
    obtain ⟨hlast, hnext⟩ := hf r (reads_ok.mpr ⟨rfl, rfl⟩) hts (hrest.trans hts) log
    exact ⟨hlast.trans hrest, hends.ok hnext⟩

/-- Changing nothing but the bound of a reading changes nothing. -/
theorem map {f : Read α bound → Read α size} (h : Follows stream depth ts walk x)
    (hf : ∀ r, (f r).value = r.value ∧ (f r).rest = r.rest) :
    Follows stream depth ts walk (f <$> x) := by
  intro hts log
  have hverdict : verdict stream.stop ((f <$> x) log) = verdict stream.stop (x log) := by
    show verdict stream.stop (EStateM.map f x log) = _
    rw [EStateM.map]
    cases x log with
    | error r mid => rfl
    | ok r mid =>
      obtain ⟨hvalue, hrest⟩ := hf r
      simp only [verdict, hvalue, hrest]
  rw [hverdict]
  exact h hts log

theorem tracked_map {x : Except Rejection (Read α bound)} {f : Read α bound → Read α size}
    (h : Follows stream depth ts walk (tracked x))
    (hf : ∀ r, (f r).value = r.value ∧ (f r).rest = r.rest) :
    Follows stream depth ts walk (tracked (f <$> x)) := by
  have hmap := h.map hf
  cases x <;> exact hmap

theorem readMap {x : Except Rejection (Read α bound)} {f : Read α bound → Read α size}
    (h : Follows stream depth ts walk (tracked x))
    (hf : ∀ r, (f r).value = r.value ∧ (f r).rest = r.rest) :
    Follows stream depth ts walk (tracked (x >>= fun r => .ok (f r))) := by
  have hmap := h.map hf
  cases x <;> exact hmap

theorem next {r : Read β bound} {rule : Rule α}
    (h : Follows stream depth r.rest walk (tracked (rule r.rest))) :
    Follows stream depth r.rest walk (tracked (r.next rule)) :=
  h.tracked_map fun _ => ⟨rfl, rfl⟩

theorem nextOptional {r : Read β bound} {rule : OptionalRule α}
    (h : Follows stream depth r.rest walk (tracked (rule r.rest))) :
    Follows stream depth r.rest walk (tracked (r.nextOptional rule)) :=
  h.tracked_map fun _ => ⟨rfl, rfl⟩

theorem trackedNext {r : Read β bound} {rule : TrackedRule α}
    (h : Follows stream depth r.rest walk (rule r.rest)) :
    Follows stream depth r.rest walk (r.next rule) :=
  h.map fun _ => ⟨rfl, rfl⟩

theorem trackedNextOptional {r : Read β bound} {rule : OptionalTrackedRule α}
    (h : Follows stream depth r.rest walk (rule r.rest)) :
    Follows stream depth r.rest walk (r.nextOptional rule) :=
  h.map fun _ => ⟨rfl, rfl⟩

/-- Nothing is left to read. -/
theorem done {r : Read α bound} (h : r.rest = ts) :
    Follows stream depth ts (fun _ => pure r.value) (tracked (.ok r)) := by
  rw [← h]
  exact fun _ _ => ⟨List.suffix_refl _, .pure ..⟩

/-- Milestones are no tokens. -/
theorem reach {m : Milestone} (h : Follows stream depth ts walk x) :
    Follows stream depth ts walk (do Grammar.reach m; x) :=
  fun hts log => h hts (log.push m)

/-- A move before the rest of a walk, from which the rule reads on. -/
theorem move {γ : Type} {m : Move γ} {c : γ} {f : γ → Rules → Attempt α} {rest : List Token}
    (hm : ts <:+ stream.body → Moves m (stream.before ts depth) c (stream.before rest depth))
    (hrest : rest <:+ ts) (h : Follows stream depth rest (f c) x) :
    Follows stream depth ts (fun rules => liftM m >>= fun c => f c rules) x := by
  intro hts log
  obtain ⟨hlast, hends⟩ := h (hrest.trans hts) log
  exact ⟨hlast.trans hrest, Ends.move (hm hts) hends⟩

theorem peek {f : Token → Rules → Attempt α}
    (h : Follows stream depth ts (f (ts.headD stream.stop)) x) :
    Follows stream depth ts (fun rules => do f (← Walker.peek stream.tokens) rules) x :=
  .move moves_peek (List.suffix_refl _) h

theorem check (hyes : nextIs shape ts = true → Follows stream depth ts yes x)
    (hno : nextIs shape ts = false → Follows stream depth ts no x) :
    Follows stream depth ts
      (fun rules => do if ← Walker.check stream.tokens shape then yes rules else no rules) x := by
  refine .move (moves_check shape) (List.suffix_refl _) ?_
  cases h : nextIs shape ts with
  | true => exact hyes h
  | false => exact hno h

theorem accept
    (hyes : ∀ t rest, t :: rest <:+ stream.body → ts = t :: rest → t.shape = shape →
      Follows stream depth rest yes x)
    (hno : nextIs shape ts = false → Follows stream depth ts no x) :
    Follows stream depth ts
      (fun rules => do if ← Walker.accept stream.tokens shape then yes rules else no rules) x := by
  intro hts
  cases h : nextIs shape ts with
  | false => exact move (fun _ => moves_accept_not hts h) (List.suffix_refl ts) (hno h) hts
  | true =>
    cases ts with
    | nil => contradiction
    | cons t rest =>
      have ht : t.shape = shape := nextIs_cons_true.mp h
      subst ht
      exact move moves_accept (List.suffix_cons ..) (hyes t rest hts rfl rfl) hts

theorem acceptFirst {γ : Type} {signs : List (TokenKind.Shape × γ)}
    {f : Option γ → Rules → Attempt α}
    (hyes : ∀ t rest c, ts = t :: rest → signs.lookup t.shape = some c →
      Follows stream depth rest (f (some c)) x)
    (hno : Declines (List.lookup · signs) ts → Follows stream depth ts (f none) x) :
    Follows stream depth ts
      (fun rules => do f (← Walker.acceptFirst stream.tokens signs) rules) x := by
  rcases declines_or_wants (List.lookup · signs) ts with h | ⟨t, rest, c, rfl, h⟩
  · exact .move (fun hts => moves_acceptFirst_not hts h) (List.suffix_refl ts) (hno h)
  · exact .move (fun hts => moves_acceptFirst hts h) (List.suffix_cons ..) (hyes t rest c rfl h)

theorem advance {t : Token} {rest : List Token} {f : Token → Rules → Attempt α}
    (h : Follows stream depth rest (f t) x) :
    Follows stream depth (t :: rest) (fun rules => do f (← Walker.advance stream.tokens) rules) x :=
  .move moves_advance (List.suffix_cons ..) h

/-- A rule does what it does with the rules put in once. -/
theorem unfold {body : Rules → Attempt α}
    (hwalk : ∀ rules, walk (rules.unfold stream.tokens) = body rules)
    (h : Follows stream depth ts body x) : Follows stream depth ts walk x := by
  intro hts log
  obtain ⟨hrest, hends⟩ := h hts log
  exact ⟨hrest, hends.unfold hwalk⟩

theorem fold {body : Rules → Attempt α}
    (hwalk : ∀ rules, walk (rules.unfold stream.tokens) = body rules)
    (h : Follows stream depth ts walk x) : Follows stream depth ts body x := by
  intro hts log
  obtain ⟨hrest, hends⟩ := h hts log
  exact ⟨hrest, hends.fold hwalk⟩

/-- A rule that is opened within the limit is closed again. -/
theorem nested (hdepth : depth < maxNesting) (h : Follows stream (depth + 1) ts walk x) :
    Follows stream depth ts (fun rules => Walker.nested stream.tokens (walk rules)) x := by
  intro hts log
  obtain ⟨hrest, n, hn⟩ := h hts log
  have hlimit : ¬ maxNesting ≤ (stream.before ts depth).depth := Nat.not_le.mpr hdepth
  refine ⟨hrest, n, fun m hm => Moves.get ?_⟩
  rw [if_neg hlimit]
  exact Moves.bind (.modify ..) (Moves.bind (hn m hm) (Moves.bind (.modify ..) (.pure ..)))

end Follows

theorem follows_refuseAt (h : ((⟨cause, ts⟩ : Rejection).toError stream.stop).line = line) :
    Follows stream depth ts (fun _ => (refuseAt stream.tokens line cause : Attempt α))
      (throw ⟨cause, ts⟩ : Tracked (Read α bound)) := by
  refine .peek fun hts log => ⟨List.suffix_refl _, ?_⟩
  rw [← h]
  exact .throw ..

theorem follows_refuse (h : ((⟨cause, ts⟩ : Rejection).toError stream.stop).line =
      (ts.headD stream.stop).line) :
    Follows stream depth ts (fun _ => (refuse stream.tokens cause : Attempt α))
      (throw ⟨cause, ts⟩ : Tracked (Read α bound)) :=
  .peek (follows_refuseAt h)

/-- A rule that is opened beyond the limit is refused. -/
theorem follows_nested_full (hdepth : maxNesting ≤ depth) :
    Follows stream depth ts (fun rules => nested stream.tokens (walk rules))
      (throw ⟨.tooDeep, ts⟩ : Tracked (Read α bound)) := by
  intro hts log
  have hrefuse : Follows stream depth ts (fun _ => (refuse stream.tokens .tooDeep : Attempt α))
      (throw ⟨.tooDeep, ts⟩ : Tracked (Read α bound)) := follows_refuse rfl
  obtain ⟨hrest, n, hn⟩ := hrefuse hts log
  have hlimit : maxNesting ≤ (stream.before ts depth).depth := hdepth
  refine ⟨hrest, n, fun m hm => Moves.get ?_⟩
  rw [if_pos hlimit]
  exact hn m hm

theorem follows_consume (shape : TokenKind.Shape) (phrase : String) :
    Follows stream depth ts (fun _ => consume stream.tokens shape phrase)
      (tracked (expect shape phrase ts)) := by
  refine .check (fun hyes => ?_) fun hno => ?_
  · cases ts with
    | nil => contradiction
    | cons t rest =>
      rw [expect, if_pos (nextIs_cons_true.mp hyes), ← bind_pure (liftM _)]
      exact .advance (.done rfl)
  · have hreject : expect shape phrase ts = reject (.expected phrase) ts := by
      cases ts with
      | nil => rfl
      | cons t rest => exact if_neg (nextIs_cons_false.mp hno)
    rw [hreject]
    exact follows_refuse rfl

/-- Of an identifier the walk keeps the text. -/
theorem Follows.identifier {x : Except Rejection (Read Token bound)}
    {next : String → Rules → Attempt α} {f : Read Token bound → Except Rejection (Read α size)}
    (hx : Follows stream depth ts (fun _ => consume stream.tokens .identifier phrase) (tracked x))
    (hf : ∀ r, Reads x r.value r.rest → ts <:+ stream.body →
      Follows stream depth r.rest (next r.value.lexeme) (tracked (f r))) :
    Follows stream depth ts
      (fun rules => do next (← Walker.identifier stream.tokens phrase) rules)
      (tracked (x >>= f)) := by
  simp only [Walker.identifier, bind_assoc, pure_bind]
  exact .read hx hf

theorem follows_stringLiteral (phrase : String) :
    Follows stream depth ts (fun _ => stringLiteral stream.tokens phrase)
      (tracked (Grammar.stringLiteral phrase ts)) := by
  refine .peek ?_
  cases ts with
  | nil =>
    rw [List.headD_nil, TokenStream.kind_stop]
    exact follows_refuse rfl
  | cons t rest =>
    rw [Grammar.stringLiteral, List.headD_cons]
    cases t.kind with
    | string text => exact .advance (.done rfl)
    | _ => exact follows_refuse rfl

end follows

end Walker

end DivisionScript
