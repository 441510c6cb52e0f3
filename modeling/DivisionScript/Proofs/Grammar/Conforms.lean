import DivisionScript.Proofs.Grammar.Language

/-!
# Grammar — Conforms

What it means that a rule goes along with a language. Where the rule succeeds, it has read a word of
the language, and with the token ahead in view no other word could have been read, whatever of `Y`
comes after. Where it fails, what it has read begins some word of the language, and together with
the offending token it does not. One lemma for each way of building rules makes the whole conform if
its parts do.
-/

namespace DivisionScript

/-- Whether the cause is that a limit is exceeded. -/
def SyntaxCause.isLimit : SyntaxCause → Bool
  | .tooDeep | .tooManyParameters _ | .tooManyArguments => true
  | _ => false

namespace Grammar

open TokenKind Computability

variable {α β : Type} {L M N Y : Language Shape} {F G : Shape → Prop}

/-! ## Beginnings -/

/-- Some word of the language begins like this. -/
def Viable (L : Language Shape) (w : List Shape) : Prop :=
  ∃ u, w ++ u ∈ L

/-- Every word of the language begins with one of these shapes. -/
def StartsIn (F : Shape → Prop) (L : Language Shape) : Prop :=
  ∀ w ∈ L, ∃ s u, w = s :: u ∧ F s

/-- The language has a word. -/
class Nonvoid (L : Language Shape) : Prop where
  exists_mem : ∃ w, w ∈ L

/-- The shape of the next token; where there is none, the text ends. -/
def ahead : List Token → Shape
  | [] => .endOfText
  | t :: _ => t.shape

theorem viable_mul {w : List Shape} :
    Viable (L * Y) w ↔ ∃ u ∈ L, ∃ y ∈ Y, w <+: u ++ y := by
  constructor
  · rintro ⟨v, h⟩
    obtain ⟨u, hu, y, hy, heq⟩ := Language.mem_mul.mp h
    exact ⟨u, hu, y, hy, v, heq.symm⟩
  · rintro ⟨u, hu, y, hy, v, hv⟩
    exact ⟨v, hv ▸ Language.append_mem_mul hu hy⟩

theorem Viable.mono {w : List Shape} (h : Viable L w) (hle : ∀ w ∈ L, w ∈ M) : Viable M w :=
  h.imp fun _ hw => hle _ hw

instance (s : Shape) : Nonvoid (token s) :=
  ⟨[s], rfl⟩

instance : Nonvoid (1 : Language Shape) :=
  ⟨[], rfl⟩

instance [hL : Nonvoid L] [hM : Nonvoid M] : Nonvoid (L * M) := by
  obtain ⟨w, hw⟩ := hL.exists_mem
  obtain ⟨u, hu⟩ := hM.exists_mem
  exact ⟨w ++ u, Language.append_mem_mul hw hu⟩

instance [hL : Nonvoid L] : Nonvoid (L + M) :=
  ⟨hL.exists_mem.imp fun _ hw => .inl hw⟩

instance : Nonvoid L∗ :=
  ⟨[], Language.nil_mem_kstar L⟩

theorem nonvoid_led {tail : Shape → Language Shape} (s : Shape) [h : Nonvoid (tail s)] :
    Nonvoid (led tail) :=
  ⟨h.exists_mem.elim fun u hu => ⟨s :: u, s, u, hu, rfl⟩⟩

namespace StartsIn

theorem mono (h : StartsIn F L) (hFG : ∀ s, F s → G s) : StartsIn G L := by
  intro w hw
  obtain ⟨s, u, rfl, hs⟩ := h w hw
  exact ⟨s, u, rfl, hFG s hs⟩

theorem token {s : Shape} (hs : F s) : StartsIn F (token s) := by
  rintro _ rfl
  exact ⟨s, [], rfl, hs⟩

theorem wants {wanted : Shape → Option β} (h : ∀ {s b}, wanted s = some b → F s) :
    StartsIn F (wants wanted) := by
  rintro _ ⟨s, b, hs, rfl⟩
  exact ⟨s, [], rfl, h hs⟩

theorem led {tail : Shape → Language Shape} (h : ∀ s, ∀ u ∈ tail s, F s) :
    StartsIn F (led tail) := by
  rintro _ ⟨s, u, hu, rfl⟩
  exact ⟨s, u, rfl, h s u hu⟩

/-- No word begins with what nothing may follow. -/
theorem led_ne {tail : Shape → Language Shape} {s : Shape} (hnone : ∀ u, u ∉ tail s) :
    StartsIn (· ≠ s) (Grammar.led tail) := by
  refine .led ?_
  rintro _ u hu rfl
  exact hnone u hu

theorem mul (h : StartsIn F L) (M : Language Shape) : StartsIn F (L * M) := by
  intro w hw
  obtain ⟨_, hu, v, -, rfl⟩ := Language.mem_mul.mp hw
  obtain ⟨s, u, rfl, hs⟩ := h _ hu
  exact ⟨s, u ++ v, rfl, hs⟩

/-- What a token opens begins with it. -/
theorem opened (s : Shape) (L : Language Shape) : StartsIn (· = s) (Grammar.token s * L) :=
  mul (F := (· = s)) (.token rfl) L

theorem add (hL : StartsIn F L) (hM : StartsIn F M) : StartsIn F (L + M) := by
  rintro w (hw | hw)
  · exact hL w hw
  · exact hM w hw

theorem optional_mul (hM : StartsIn F M) (hY : StartsIn F Y) : StartsIn F ((1 + M) * Y) := by
  rw [add_mul, one_mul]
  exact hY.add (hM.mul Y)

theorem kstar_mul (hM : StartsIn F M) (hY : StartsIn F Y) : StartsIn F (M∗ * Y) := by
  rw [← Language.one_add_self_mul_kstar_eq_kstar]
  exact (hM.mul _).optional_mul hY

end StartsIn

/-! ## Endings of rules -/

/-- A rule for the language `L`, followed by words of `Y`, has made this of the tokens. -/
inductive Conforms (L Y : Language Shape) (ts : List Token) : Except Rejection (List Token) → Prop
  | read {v rest : List Token} (hts : ts = v ++ rest) (hmem : v.map Token.shape ∈ L)
      (honly : ∀ u ∈ L, ∀ y ∈ Y, v.map Token.shape ++ [ahead rest] <+: u ++ y →
        u = v.map Token.shape) : Conforms L Y ts (.ok rest)
  | limit {r : Rejection} (h : r.cause.isLimit) : Conforms L Y ts (.error r)
  | refused {r : Rejection} {v : List Token} (hts : ts = v ++ r.rest)
      (hviable : Viable L (v.map Token.shape))
      (hbarred : ¬ Viable (L * Y) (v.map Token.shape ++ [ahead r.rest])) :
      Conforms L Y ts (.error r)

theorem ahead_begins (vs rest : List Token) :
    [ahead (vs ++ rest)] <+: vs.map Token.shape ++ [ahead rest] := by
  cases vs with
  | nil => exact List.prefix_refl _
  | cons t vs => exact ⟨_, rfl⟩

namespace Conforms

variable {ts mid rest : List Token} {r : Rejection} {e : Except Rejection (List Token)}

theorem suffix (h : Conforms L Y ts (.ok rest)) : rest <:+ ts := by
  cases h with
  | read hts => exact ⟨_, hts.symm⟩

/-! ## Sequences -/

/-- What begins a sequence and goes on to the token ahead has its first part as that of every word
of the sequence. -/
theorem seq (h₁ : Conforms L (M * Y) ts (.ok mid)) (h₂ : Conforms M Y mid e) :
    Conforms (L * M) Y ts e := by
  obtain ⟨hts₁, hmem₁, honly₁⟩ | _ | _ := h₁
  rename_i us
  have hsplit {vs rest : List Token} (hmid : mid = vs ++ rest) {u₁ u₂ y : List Shape}
      (hu₁ : u₁ ∈ L) (hu₂ : u₂ ∈ M) (hy : y ∈ Y)
      (hbegins : (us ++ vs).map Token.shape ++ [ahead rest] <+: u₁ ++ u₂ ++ y) :
      u₁ = us.map Token.shape ∧ vs.map Token.shape ++ [ahead rest] <+: u₂ ++ y := by
    rw [List.map_append, List.append_assoc, List.append_assoc] at hbegins
    have hfirst : us.map Token.shape ++ [ahead mid] <+: u₁ ++ (u₂ ++ y) := by
      refine .trans ?_ hbegins
      rw [List.prefix_append_right_inj, hmid]
      exact ahead_begins vs rest
    have hu : u₁ = us.map Token.shape :=
      honly₁ u₁ hu₁ (u₂ ++ y) (Language.append_mem_mul hu₂ hy) hfirst
    rw [hu, List.prefix_append_right_inj] at hbegins
    exact ⟨hu, hbegins⟩
  cases h₂ with
  | limit h => exact .limit h
  | @read vs rest hts₂ hmem₂ honly₂ =>
    refine .read (v := us ++ vs) ?_ ?_ ?_
    · rw [hts₁, hts₂, List.append_assoc]
    · rw [List.map_append]
      exact Language.append_mem_mul hmem₁ hmem₂
    · intro u hu y hy hbegins
      obtain ⟨u₁, hu₁, u₂, hu₂, rfl⟩ := Language.mem_mul.mp hu
      obtain ⟨rfl, hsecond⟩ := hsplit hts₂ hu₁ hu₂ hy hbegins
      rw [List.map_append, honly₂ u₂ hu₂ y hy hsecond]
  | @refused r vs hts₂ hviable hbarred =>
    refine .refused (v := us ++ vs) ?_ ?_ ?_
    · rw [hts₁, hts₂, List.append_assoc]
    · obtain ⟨w, hw⟩ := hviable
      refine ⟨w, ?_⟩
      rw [List.map_append, List.append_assoc]
      exact Language.append_mem_mul hmem₁ hw
    · intro hviable
      obtain ⟨u, hu, y, hy, hbegins⟩ := viable_mul.mp hviable
      obtain ⟨u₁, hu₁, u₂, hu₂, rfl⟩ := Language.mem_mul.mp hu
      exact hbarred (viable_mul.mpr ⟨u₂, hu₂, y, hy, (hsplit hts₂ hu₁ hu₂ hy hbegins).2⟩)

theorem seq_error [hM : Nonvoid M] (h : Conforms L (M * Y) ts (.error r)) :
    Conforms (L * M) Y ts (.error r) := by
  cases h with
  | limit h => exact .limit h
  | refused hts hviable hbarred =>
    refine .refused hts ?_ ?_
    · obtain ⟨w, hw⟩ := hviable
      obtain ⟨u, hu⟩ := hM.exists_mem
      exact ⟨w ++ u, by rw [← List.append_assoc]; exact Language.append_mem_mul hw hu⟩
    · rwa [mul_assoc]

theorem nothing : Conforms 1 Y ts (.ok ts) :=
  .read (v := []) rfl rfl fun _ hu _ _ _ => hu

/-- What has been read is complete, but the token ahead cannot come after it. -/
theorem surplus {cause : SyntaxCause} (hY : StartsIn F Y) (hahead : ¬ F (ahead ts)) :
    Conforms 1 Y ts (.error ⟨cause, ts⟩) := by
  refine .refused (v := []) rfl ⟨[], rfl⟩ fun hviable => ?_
  obtain ⟨_, rfl, y, hy, hbegins⟩ := viable_mul.mp hviable
  obtain ⟨s, w, rfl, hs⟩ := hY y hy
  rw [← (List.cons_prefix_cons.mp hbegins).1] at hs
  exact hahead hs

/-! ## Single tokens -/

section tokens

variable {t : Token} {s : Shape} {cause : SyntaxCause}

theorem token (ht : t.shape = s) : Conforms (token s) Y (t :: ts) (.ok ts) := by
  subst ht
  exact .read (v := [t]) rfl rfl fun _ hu _ _ _ => hu

/-- No word begins with the token ahead. -/
theorem barred [hL : Nonvoid L] (h : StartsIn F L) (hahead : ¬ F (ahead ts)) :
    Conforms L Y ts (.error ⟨cause, ts⟩) := by
  refine .refused (v := []) rfl hL.exists_mem fun hviable => ?_
  obtain ⟨u, hu, y, -, hbegins⟩ := viable_mul.mp hviable
  obtain ⟨s, w, rfl, hs⟩ := h u hu
  rw [← (List.cons_prefix_cons.mp hbegins).1] at hs
  exact hahead hs

theorem token_refused (hs : ahead ts ≠ s) : Conforms (Grammar.token s) Y ts (.error ⟨cause, ts⟩) :=
  .barred (F := (· = s)) (.token rfl) hs

theorem behind (ht : t.shape = s) (h : Conforms L Y ts e) :
    Conforms (Grammar.token s * L) Y (t :: ts) e :=
  (token ht).seq h

theorem wanted {wanted : Shape → Option β} {b : β} (ht : wanted t.shape = some b) :
    Conforms (wants wanted) Y (t :: ts) (.ok ts) := by
  refine .read (v := [t]) rfl ⟨_, b, ht, rfl⟩ ?_
  rintro _ ⟨s, b', hs, rfl⟩ y - hbegins
  rw [List.map_singleton, (List.cons_prefix_cons.mp hbegins).1]

end tokens

/-! ## Choices -/

theorem ahead_eq {vs : List Token} {s : Shape} {w : List Shape} (hts : ts = vs ++ rest)
    (hbegins : vs.map Token.shape ++ [ahead rest] <+: s :: w) : ahead ts = s := by
  have hfirst : [ahead ts] <+: s :: w := by
    rw [hts]
    exact (ahead_begins vs rest).trans hbegins
  exact (List.cons_prefix_cons.mp hfirst).1

/-- What does not begin with the token ahead is no alternative. -/
theorem or_else (h : Conforms L Y ts e) (hM : StartsIn F (M * Y)) (hahead : ¬ F (ahead ts)) :
    Conforms (L + M) Y ts e := by
  have hother {vs rest : List Token} (hts : ts = vs ++ rest) {u y : List Shape} (hu : u ∈ M)
      (hy : y ∈ Y) : ¬ vs.map Token.shape ++ [ahead rest] <+: u ++ y := by
    intro hbegins
    obtain ⟨s, w, hw, hs⟩ := hM (u ++ y) (Language.append_mem_mul hu hy)
    rw [hw] at hbegins
    rw [ahead_eq hts hbegins] at hahead
    exact hahead hs
  cases h with
  | limit h => exact .limit h
  | read hts hmem honly =>
    refine .read hts (.inl hmem) ?_
    rintro u (hu | hu) y hy hbegins
    · exact honly u hu y hy hbegins
    · exact absurd hbegins (hother hts hu hy)
  | refused hts hviable hbarred =>
    refine .refused hts (hviable.mono fun _ hw => .inl hw) fun hviable => ?_
    obtain ⟨u, hu | hu, y, hy, hbegins⟩ := viable_mul.mp hviable
    · exact hbarred (viable_mul.mpr ⟨u, hu, y, hy, hbegins⟩)
    · exact hother hts hu hy hbegins

/-- An optional part is left out where it cannot begin. -/
theorem left_out (hL : StartsIn F L) (hahead : ¬ F (ahead ts)) : Conforms (1 + L) Y ts (.ok ts) :=
  nothing.or_else (hL.mul Y) hahead

/-- An optional part is there where nothing that may come after it can begin. -/
theorem present (h : Conforms L Y ts e) (hY : StartsIn G Y) (hahead : ¬ G (ahead ts)) :
    Conforms (1 + L) Y ts e := by
  rw [add_comm]
  refine h.or_else ?_ hahead
  rwa [one_mul]

theorem none_left (hL : StartsIn F L) (hahead : ¬ F (ahead ts)) : Conforms L∗ Y ts (.ok ts) := by
  rw [← Language.one_add_self_mul_kstar_eq_kstar]
  exact left_out (hL.mul _) hahead

theorem one_more (h : Conforms (L * L∗) Y ts e) (hY : StartsIn G Y) (hahead : ¬ G (ahead ts)) :
    Conforms L∗ Y ts e := by
  rw [← Language.one_add_self_mul_kstar_eq_kstar]
  exact h.present hY hahead

section led

theorem led_eq (tail : Shape → Language Shape) (s : Shape) :
    Grammar.led tail = Grammar.token s * tail s +
      Grammar.led (fun r => if r = s then 0 else tail r) := by
  refine Language.ext fun w => ?_
  rw [Language.mem_add, mem_token_mul]
  constructor
  · rintro ⟨r, u, hu, rfl⟩
    by_cases hr : r = s
    · subst hr
      exact .inl ⟨u, hu, rfl⟩
    · exact .inr ⟨r, u, by simpa only [if_neg hr] using hu, rfl⟩
  · rintro (⟨u, hu, rfl⟩ | ⟨r, u, hu, rfl⟩)
    · exact ⟨s, u, hu, rfl⟩
    · dsimp only at hu
      split at hu
      · cases hu
      · exact ⟨r, u, hu, rfl⟩

variable {tail : Shape → Language Shape} {t : Token} {cause : SyntaxCause}

/-- The words that begin with the token ahead are all there is to choose from. -/
theorem to_led {s : Shape} (h : Conforms (Grammar.token s * tail s) Y ts e) (hs : ahead ts = s) :
    Conforms (Grammar.led tail) Y ts e := by
  rw [led_eq tail s]
  refine h.or_else (F := (· ≠ s)) (.mul (.led ?_) Y) (not_not_intro hs)
  rintro s u hu rfl
  rw [if_pos rfl] at hu
  exact hu

/-- The first token decides what follows. -/
theorem led {s : Shape} (ht : t.shape = s) (h : Conforms (tail s) Y ts e) :
    Conforms (Grammar.led tail) Y (t :: ts) e :=
  (behind ht h).to_led ht

/-- A word that begins with the token ahead is one of those that may follow it. -/
theorem of_led {s : Shape} [Nonvoid (tail s)] (h : Conforms (Grammar.led tail) Y ts e)
    (hs : ahead ts = s) : Conforms (Grammar.token s * tail s) Y ts e := by
  have hle : ∀ w ∈ Grammar.token s * tail s, w ∈ Grammar.led tail := by
    intro w hw
    rw [led_eq tail s]
    exact .inl hw
  cases h with
  | limit h => exact .limit h
  | @read vs rest hts hmem honly =>
    refine .read hts ?_ fun u hu => honly u (hle u hu)
    obtain ⟨r, u, hu, hvs⟩ := hmem
    obtain rfl : r = s := by
      rw [← hs, ahead_eq (w := u ++ [ahead rest]) hts (by rw [hvs]; exact List.prefix_refl _)]
    rw [hvs]
    exact mem_token_mul.mpr ⟨u, hu, rfl⟩
  | @refused r vs hts hviable hbarred =>
    refine .refused hts ?_ fun hviable => ?_
    · cases vs with
      | nil => exact Nonvoid.exists_mem
      | cons first vs =>
        obtain ⟨w, s', u, hu, hvs⟩ := hviable
        obtain ⟨hfirst, rfl⟩ := List.cons.inj hvs
        obtain rfl : s' = s := by rw [← hs, hts, ← hfirst]; rfl
        exact ⟨w, mem_token_mul.mpr ⟨_, hu, hvs⟩⟩
    · obtain ⟨u, hu, y, hy, hbegins⟩ := viable_mul.mp hviable
      exact hbarred (viable_mul.mpr ⟨u, hle u hu, y, hy, hbegins⟩)

theorem led_refused {s : Shape} [Nonvoid (Grammar.led tail)] (hs : ahead ts = s)
    (hnone : ∀ u, u ∉ tail s) : Conforms (Grammar.led tail) Y ts (.error ⟨cause, ts⟩) :=
  .barred (F := fun s => ∃ u, u ∈ tail s) (.led fun _ u hu => ⟨u, hu⟩)
    fun ⟨u, hu⟩ => hnone u (hs ▸ hu)

end led

/-! ## Computations -/

section rules

variable {bound size : Nat} {p : α → List Token} {q : β → List Token}

theorem bind {x : Except Rejection α} {f : α → Except Rejection β} [Nonvoid M]
    (hx : Conforms L (M * Y) ts (x.map p))
    (hf : ∀ a, p a <:+ ts → Conforms M Y (p a) ((f a).map q)) :
    Conforms (L * M) Y ts ((x >>= f).map q) := by
  cases x with
  | error r => exact hx.seq_error
  | ok a => exact hx.seq (hf a hx.suffix)

/-- What is made of what has been read reads nothing more. -/
theorem done {x : Except Rejection α} {g : α → β} (hx : Conforms L Y ts (x.map p))
    (hg : ∀ a, q (g a) = p a) : Conforms L Y ts ((x >>= fun a => .ok (g a)).map q) := by
  cases x with
  | error r => exact hx
  | ok a =>
    show Conforms L Y ts (.ok (q (g a)))
    rw [hg]
    exact hx

/-- Changing nothing but the bound of a reading changes nothing. -/
theorem map {f : Read α size → Read α bound} {x : Except Rejection (Read α size)}
    (hx : Conforms L Y ts (x.map Read.rest)) (hf : ∀ r, (f r).rest = r.rest) :
    Conforms L Y ts ((f <$> x).map Read.rest) := by
  cases x with
  | error r => exact hx
  | ok r =>
    show Conforms L Y ts (.ok (f r).rest)
    rw [hf]
    exact hx

theorem next {r : Read α bound} {rule : Rule β}
    (h : Conforms L Y r.rest ((rule r.rest).map Read.rest)) :
    Conforms L Y r.rest ((r.next rule).map Read.rest) :=
  h.map fun _ => rfl

theorem nextOptional {r : Read α bound} {rule : OptionalRule β}
    (h : Conforms L Y r.rest ((rule r.rest).map Read.rest)) :
    Conforms L Y r.rest ((r.nextOptional rule).map Read.rest) :=
  h.map fun _ => rfl

theorem expect {s : Shape} {phrase : String} (hs : s ≠ .endOfText) (ts : List Token) :
    Conforms (Grammar.token s) Y ts ((expect s phrase ts).map Read.rest) := by
  cases ts with
  | nil => exact token_refused hs.symm
  | cons t us =>
    rw [Grammar.expect]
    split
    · next ht => exact token ht
    · next ht => exact token_refused ht

theorem symbol {s : Symbol} {phrase : String} (ts : List Token) :
    Conforms (Grammar.token (.symbol s)) Y ts ((expectSymbol s phrase ts).map Read.rest) :=
  expect (s := .symbol s) nofun ts

theorem keyword {k : Keyword} {phrase : String} (ts : List Token) :
    Conforms (Grammar.token (.keyword k)) Y ts ((expectKeyword k phrase ts).map Read.rest) :=
  expect (s := .keyword k) nofun ts

theorem identifier {phrase : String} (ts : List Token) :
    Conforms (Grammar.token .identifier) Y ts
      ((Grammar.expect .identifier phrase ts).map Read.rest) :=
  expect (s := .identifier) nofun ts

end rules

end Conforms

/-! ## Computations with milestones -/

/-- What a computation with milestones has made of the tokens. -/
def outcome (p : α → List Token) :
    EStateM.Result Rejection (Array Milestone) α → Except Rejection (List Token)
  | .ok a _ => .ok (p a)
  | .error r _ => .error r

namespace Conforms

section tracked

variable {bound size : Nat} {p : α → List Token} {q : β → List Token} {log : Array Milestone}
variable {ts : List Token}

theorem bindTracked {x : Tracked α} {f : α → Tracked β} [Nonvoid M]
    (hx : Conforms L (M * Y) ts (outcome p (x log)))
    (hf : ∀ a log, p a <:+ ts → Conforms M Y (p a) (outcome q (f a log))) :
    Conforms (L * M) Y ts (outcome q ((x >>= f) log)) := by
  cases h : x log with
  | error r log' =>
    rw [h] at hx
    rw [bind_error h]
    exact hx.seq_error
  | ok a log' =>
    rw [h] at hx
    rw [bind_ok h]
    exact hx.seq (hf a log' hx.suffix)

theorem doneTracked {x : Tracked α} {g : α → β} (hx : Conforms L Y ts (outcome p (x log)))
    (hg : ∀ a, q (g a) = p a) : Conforms L Y ts (outcome q ((do let a ← x; pure (g a)) log)) := by
  cases h : x log with
  | error r log' =>
    rw [h] at hx
    rw [bind_error h]
    exact hx
  | ok a log' =>
    rw [h] at hx
    rw [bind_ok h]
    show Conforms L Y ts (.ok (q (g a)))
    rw [hg]
    exact hx

theorem mapTracked {f : Read α size → Read α bound} {x : Tracked (Read α size)}
    (hx : Conforms L Y ts (outcome Read.rest (x log))) (hf : ∀ r, (f r).rest = r.rest) :
    Conforms L Y ts (outcome Read.rest ((f <$> x) log)) := by
  rw [map_eq_pure_bind]
  exact hx.doneTracked hf

theorem reached {m : Milestone} {x : Tracked α}
    (h : Conforms L Y ts (outcome p (x (log.push m)))) :
    Conforms L Y ts (outcome p ((do reach m; x) log)) :=
  h

theorem nextTracked {r : Read α bound} {rule : TrackedRule β}
    (h : Conforms L Y r.rest (outcome Read.rest (rule r.rest log))) :
    Conforms L Y r.rest (outcome Read.rest (r.next rule log)) :=
  h.mapTracked fun _ => rfl

theorem nextOptionalTracked {r : Read α bound} {rule : OptionalTrackedRule β}
    (h : Conforms L Y r.rest (outcome Read.rest (rule r.rest log))) :
    Conforms L Y r.rest (outcome Read.rest (r.nextOptional rule log)) :=
  h.mapTracked fun _ => rfl

theorem tracked {x : Except Rejection α} (hx : Conforms L Y ts (x.map p)) :
    Conforms L Y ts (outcome p (tracked x log)) := by
  cases x with
  | error r => exact hx
  | ok a => exact hx

end tracked

end Conforms

end Grammar

end DivisionScript
