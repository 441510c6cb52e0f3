import DivisionScript.Proofs.Grammar.Reads

/-!
# Walker — Basic

The moves of a parser that goes over a list of tokens by their indices. The token ahead and the one
behind are looked up; a look outside the list is a trap. A token stream is a list that is split at
its first end of the text. Each move has one lemma, which says where it takes a walker that stands
before that end.
-/

namespace DivisionScript

open Grammar

/-- Where a walk stands: the index of the token ahead, and how many of the rules that can contain
themselves are open. -/
structure Walker where
  current : Nat
  depth : Nat

/-- What stops a walk short. -/
inductive Walker.Trap where
  /-- A token outside the list. -/
  | index

namespace Walker

/-- A part of a walk: it moves the walker, runs into a trap or, if there is nothing, never ends. -/
abbrev Move := StateT Walker (ExceptT Trap Option)

/-- A part of a walk that may refuse the tokens. -/
abbrev Attempt := ExceptT SyntaxError Move

/-- What is never done. -/
def endless {α : Type} : Attempt α :=
  ExceptT.mk fun _ => ExceptT.mk none

/-- Where a walk starts. -/
def first : Walker :=
  ⟨0, 0⟩

section moves

variable (tokens : List Token)

/-- A token of the list. -/
def index (i : Nat) : Move Token :=
  match tokens[i]? with
  | some t => return t
  | none => throw .index

/-- The token ahead. -/
def peek : Move Token := do
  index tokens (← get).current

/-- The token behind; at the first token, that token itself. -/
def previous : Move Token := do
  index tokens ((← get).current - 1)

/-- Whether the end of the text is ahead. -/
def atEnd : Move Bool :=
  return (← peek tokens).shape = .endOfText

/-- Whether a token of the given shape is ahead, the end of the text apart. -/
def check (shape : TokenKind.Shape) : Move Bool := do
  if ← atEnd tokens then
    return false
  else
    return (← peek tokens).shape = shape

/-- Goes past the token ahead, unless it is the end of the text. -/
def advance : Move Token := do
  if ← atEnd tokens then
    previous tokens
  else
    modify fun walker => { walker with current := walker.current + 1 }
    previous tokens

/-- Goes past a token of the given shape. -/
def accept (shape : TokenKind.Shape) : Move Bool := do
  if ← check tokens shape then
    let _ ← advance tokens
    return true
  else
    return false

/-- Goes past a token of one of the given shapes. They are tried in order. -/
def acceptFirst {α : Type} : List (TokenKind.Shape × α) → Move (Option α)
  | [] => return none
  | (shape, a) :: others => do
    if ← accept tokens shape then
      return some a
    else
      acceptFirst others

/-- Whether a repetition is over: the token that closes it is ahead, or the end of the text. -/
def closed (shape : TokenKind.Shape) : Move Bool := do
  if ← check tokens shape then
    return true
  else
    atEnd tokens

/-- Refuses the token ahead, and blames a line. -/
def refuseAt {α : Type} (line : Nat) (cause : SyntaxCause) : Attempt α := do
  throw ⟨cause, (← peek tokens).lexeme, line⟩

/-- Refuses the token ahead. -/
def refuse {α : Type} (cause : SyntaxCause) : Attempt α := do
  refuseAt tokens (← peek tokens).line cause

/-- Goes past a token, which has to be of the given shape. -/
def consume (shape : TokenKind.Shape) (phrase : String) : Attempt Token := do
  if ← check tokens shape then
    advance tokens
  else
    refuse tokens (.expected phrase)

/-- Goes past an identifier and yields it. -/
def identifier (phrase : String) : Attempt String :=
  return (← consume tokens .identifier phrase).lexeme

/-- Goes past a string literal and yields its payload. -/
def stringLiteral (phrase : String) : Attempt String := do
  match (← peek tokens).kind with
  | .string text => do
    let _ ← advance tokens
    return text
  | _ => refuse tokens (.expected phrase)

/-- Opens a rule, unless too many are open, and closes it whether it succeeds or not. -/
def nested {α : Type} (rule : Attempt α) : Attempt α :=
  (do
    if maxNesting ≤ (← get).depth then
      refuse tokens .tooDeep
    else
      modify fun walker => { walker with depth := walker.depth + 1 }
      let result ← rule
      modify fun walker => { walker with depth := walker.depth - 1 }
      return result : Move (Except SyntaxError α))

end moves

/-! ## Moves that end -/

/-- The move ends without a trap, with this value and in this place. -/
def Moves {α : Type} (move : Move α) (s : Walker) (a : α) (s' : Walker) : Prop :=
  (move s).run = some (.ok (a, s'))

section moving

variable {α β : Type} {s mid s' : Walker}

theorem Moves.pure (a : α) (s : Walker) : Moves (pure a) s a s :=
  rfl

theorem Moves.bind {move : Move α} {f : α → Move β} {a : α} {b : β} (hx : Moves move s a mid)
    (hf : Moves (f a) mid b s') : Moves (move >>= f) s b s' := by
  rw [Moves] at hx hf ⊢
  show (move s).run.bind _ = _
  rw [hx]
  exact hf

theorem Moves.map {move : Move α} {a : α} (hx : Moves move s a mid) (g : α → β) :
    Moves (g <$> move) s (g a) mid := by
  rw [Moves] at hx ⊢
  show (move s).run.bind _ = _
  rw [hx]
  rfl

theorem Moves.modify (g : Walker → Walker) (s : Walker) : Moves (modify g) s () (g s) :=
  rfl

theorem Moves.get {f : Walker → Move β} {b : β} (h : Moves (f s) s b s') :
    Moves (MonadState.get >>= f) s b s' :=
  h

end moving

/-! ## TokenStreams -/

end Walker

/-- A list of tokens, split at its first end of the text. -/
structure TokenStream where
  body : List Token
  stop : Token
  tail : List Token
  shape_body : ∀ t ∈ body, t.shape ≠ .endOfText
  shape_stop : stop.shape = .endOfText

namespace TokenStream

variable (stream : TokenStream)

/-- All tokens of a stream. -/
def tokens : List Token :=
  stream.body ++ stream.stop :: stream.tail

/-- The place before the tokens `ts`, which come last before the end of the text. -/
def before (ts : List Token) (depth : Nat) : Walker :=
  ⟨stream.body.length - ts.length, depth⟩

/-- The same stream up to its first end. -/
def cut : TokenStream :=
  { stream with tail := [] }

variable {stream} {ts rest : List Token} {t : Token} {depth : Nat}

theorem takeWhile_tokens : stream.tokens.takeWhile (·.shape ≠ .endOfText) = stream.body := by
  have hbody : ∀ t ∈ stream.body, decide (t.shape ≠ .endOfText) = true := by
    simpa using stream.shape_body
  rw [tokens, List.takeWhile_append_of_pos hbody, List.takeWhile_cons_of_neg (by simp [shape_stop]),
    List.append_nil]

theorem find?_tokens : stream.tokens.find? (·.shape = .endOfText) = some stream.stop := by
  have hbody : stream.body.find? (·.shape = .endOfText) = none := by
    simpa using stream.shape_body
  rw [tokens, List.find?_append, hbody, Option.none_or,
    List.find?_cons_of_pos (by simp [shape_stop])]

theorem findIdx_tokens : stream.tokens.findIdx (·.shape = .endOfText) = stream.body.length := by
  have hbody : stream.body.findIdx (·.shape = .endOfText) = stream.body.length :=
    List.findIdx_eq_length_of_false (by simpa using stream.shape_body)
  rw [tokens, List.findIdx_append, hbody, if_neg (Nat.lt_irrefl _), List.findIdx_cons]
  simp [shape_stop]

theorem take_tokens : stream.tokens.take (stream.body.length + 1) = stream.cut.tokens :=
  List.take_length_add_append 1

theorem exists_of_mem {tokens : List Token} {t : Token} (hmem : t ∈ tokens)
    (ht : t.shape = .endOfText) : ∃ stream : TokenStream, stream.tokens = tokens := by
  have hsome : (tokens.find? (·.shape = .endOfText)).isSome := by
    rw [List.find?_isSome]
    exact ⟨t, hmem, by simpa using ht⟩
  obtain ⟨stop, hstop⟩ := Option.isSome_iff_exists.mp hsome
  obtain ⟨hshape, body, tail, rfl, hbody⟩ := List.find?_eq_some_iff_append.mp hstop
  exact ⟨⟨body, stop, tail, by simpa using hbody, by simpa using hshape⟩, rfl⟩

theorem shape_ne (h : ts <:+ stream.body) (ht : t ∈ ts) : t.shape ≠ .endOfText :=
  stream.shape_body t (h.subset ht)

theorem kind_stop : stream.stop.kind = .endOfText := by
  have h := stream.shape_stop
  revert h
  rw [Token.shape]
  cases stream.stop.kind <;> simp [TokenKind.shape]

/-- Where something else than the end of the text is ahead, there is a token before the end. -/
theorem exists_ahead {kind : TokenKind} (h : (ts.headD stream.stop).kind = kind)
    (hkind : kind ≠ .endOfText) : ∃ t rest, ts = t :: rest ∧ t.kind = kind := by
  cases ts with
  | nil => exact absurd (h.symm.trans stream.kind_stop) hkind
  | cons t rest => exact ⟨t, rest, rfl, h⟩

theorem getElem?_tokens (h : ts <:+ stream.body) :
    stream.tokens[stream.body.length - ts.length]? = some (ts.headD stream.stop) := by
  obtain ⟨read, hbody⟩ := h
  have hlength : stream.body.length - ts.length = read.length := by
    rw [← hbody, List.length_append, Nat.add_sub_cancel]
  rw [hlength, tokens, ← hbody, List.append_assoc, List.getElem?_append_right (Nat.le_refl _),
    Nat.sub_self]
  cases ts <;> rfl

/-- One token further. -/
theorem before_rest (h : t :: rest <:+ stream.body) :
    stream.before rest depth = ⟨(stream.before (t :: rest) depth).current + 1, depth⟩ := by
  have hle := h.length_le
  rw [List.length_cons] at hle
  simp only [before, List.length_cons, Walker.mk.injEq, and_true]
  omega

end TokenStream

namespace Walker

section streams

variable {α β : Type} {stream : TokenStream} {ts rest : List Token} {t : Token} {depth : Nat}
  {shape : TokenKind.Shape}

theorem nextIs_cons_true : nextIs shape (t :: rest) = true ↔ t.shape = shape :=
  decide_eq_true_iff

theorem nextIs_cons_false : nextIs shape (t :: rest) = false ↔ t.shape ≠ shape :=
  decide_eq_false_iff_not

theorem moves_peek (h : ts <:+ stream.body) :
    Moves (peek stream.tokens) (stream.before ts depth) (ts.headD stream.stop)
      (stream.before ts depth) := by
  refine Moves.get ?_
  rw [index, TokenStream.before, TokenStream.getElem?_tokens h]
  exact .pure ..

theorem moves_previous (h : t :: rest <:+ stream.body) :
    Moves (previous stream.tokens) (stream.before rest depth) t (stream.before rest depth) := by
  refine Moves.get ?_
  rw [index, TokenStream.before_rest h, Nat.add_sub_cancel, TokenStream.before,
    TokenStream.getElem?_tokens h]
  exact .pure ..

theorem moves_atEnd (h : ts <:+ stream.body) :
    Moves (atEnd stream.tokens) (stream.before ts depth) ts.isEmpty (stream.before ts depth) := by
  have hend : decide ((ts.headD stream.stop).shape = .endOfText) = ts.isEmpty := by
    cases ts with
    | nil => simp [stream.shape_stop]
    | cons t rest => simpa using TokenStream.shape_ne h (List.mem_cons_self ..)
  rw [← hend]
  exact (moves_peek h).bind (.pure ..)

theorem moves_check (shape : TokenKind.Shape) (h : ts <:+ stream.body) :
    Moves (check stream.tokens shape) (stream.before ts depth) (nextIs shape ts)
      (stream.before ts depth) := by
  refine (moves_atEnd h).bind ?_
  cases ts with
  | nil => exact .pure ..
  | cons t rest => exact (moves_peek h).bind (.pure ..)

theorem moves_advance (h : t :: rest <:+ stream.body) :
    Moves (advance stream.tokens) (stream.before (t :: rest) depth) t
      (stream.before rest depth) := by
  refine (moves_atEnd h).bind (Moves.bind (.modify ..) ?_)
  have hrest : Moves (previous stream.tokens) (stream.before rest depth) t
      (stream.before rest depth) := moves_previous h
  rw [TokenStream.before_rest h] at hrest ⊢
  exact hrest

theorem moves_accept (h : t :: rest <:+ stream.body) :
    Moves (accept stream.tokens t.shape) (stream.before (t :: rest) depth) true
      (stream.before rest depth) := by
  refine (moves_check t.shape h).bind ?_
  rw [nextIs_cons_true.mpr rfl]
  exact (moves_advance h).bind (.pure ..)

theorem moves_accept_not (h : ts <:+ stream.body) (hno : nextIs shape ts = false) :
    Moves (accept stream.tokens shape) (stream.before ts depth) false (stream.before ts depth) := by
  refine (moves_check shape h).bind ?_
  rw [hno]
  exact .pure ..

theorem moves_closed (shape : TokenKind.Shape) (h : ts <:+ stream.body) :
    Moves (closed stream.tokens shape) (stream.before ts depth) (nextIs shape ts || ts.isEmpty)
      (stream.before ts depth) := by
  refine (moves_check shape h).bind ?_
  cases nextIs shape ts with
  | true => exact .pure ..
  | false => exact moves_atEnd h

theorem moves_acceptFirst {signs : List (TokenKind.Shape × α)} {c : α}
    (h : t :: rest <:+ stream.body) (hc : signs.lookup t.shape = some c) :
    Moves (acceptFirst stream.tokens signs) (stream.before (t :: rest) depth) (some c)
      (stream.before rest depth) := by
  induction signs with
  | nil => cases hc
  | cons sign others ih =>
    obtain ⟨shape, a⟩ := sign
    rw [List.lookup_cons] at hc
    by_cases ht : t.shape = shape
    · subst ht
      rw [beq_self_eq_true] at hc
      cases hc
      exact (moves_accept h).bind (.pure ..)
    · rw [beq_false_of_ne ht] at hc
      exact (moves_accept_not h (nextIs_cons_false.mpr ht)).bind (ih hc)

theorem moves_acceptFirst_not {signs : List (TokenKind.Shape × α)} (h : ts <:+ stream.body)
    (hno : Declines (List.lookup · signs) ts) :
    Moves (acceptFirst stream.tokens signs) (stream.before ts depth) none
      (stream.before ts depth) := by
  induction signs with
  | nil => exact .pure ..
  | cons sign others ih =>
    obtain ⟨shape, a⟩ := sign
    cases ts with
    | nil => exact (moves_accept_not h rfl).bind (ih trivial)
    | cons t rest =>
      have hlookup : List.lookup t.shape ((shape, a) :: others) = none := hno
      rw [List.lookup_cons] at hlookup
      by_cases ht : t.shape = shape
      · rw [ht, beq_self_eq_true] at hlookup
        cases hlookup
      · rw [beq_false_of_ne ht] at hlookup
        exact (moves_accept_not h (nextIs_cons_false.mpr ht)).bind (ih hlookup)

end streams

end Walker

end DivisionScript
