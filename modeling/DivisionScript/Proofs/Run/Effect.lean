import Mathlib.Order.Defs.Unbundled
import DivisionScript.Proofs.Run.Call

/-!
# Run — Effect

What a computation makes of the environment. `Leads r act` says that `act`, whether or not it
succeeds, leads from every environment to one that `r` relates it to. Only writing a name changes
the environment, so a preorder that allows the writes of a name allows whatever the parts of
statements do with it; a call counts as a write of the function's name, since it puts back all that
its body has done.
-/

namespace DivisionScript

/-- The environment is unchanged, or the name has been written. Where constants are enforced, no
constant is written. -/
def Environment.Writes (settings : Settings) (name : String) (env env' : Environment) : Prop :=
  env' = env ∨
    (settings.enforceConstants → env.isConstant name = false) ∧ ∃ value, env' = env.set name value

/-- The relation allows a name to be written. -/
def Environment.Allows (settings : Settings) (r : Environment → Environment → Prop)
    (name : String) : Prop :=
  ∀ ⦃env env'⦄, Environment.Writes settings name env env' → r env env'

namespace Run

variable {α β γ : Type} {r : Environment → Environment → Prop}

/-- Whether or not it succeeds, the computation leads from an environment to a related one. -/
def Leads (r : Environment → Environment → Prop) (act : Run α) : Prop :=
  ∀ m, r m.environment (left (act m)).environment

theorem Leads.ok {act : Run α} (h : Leads r act) {m m' : Machine} {a : α} (e : act m = .ok a m') :
    r m.environment m'.environment := by
  have := h m
  rwa [e] at this

theorem Leads.error {act : Run α} (h : Leads r act) {m m' : Machine} {failure : Failure}
    (e : act m = .error failure m') : r m.environment m'.environment := by
  have := h m
  rwa [e] at this

theorem Leads.get {f : Machine → Run β} (h : ∀ m, Leads r (f m)) : Leads r (get >>= f) :=
  fun m => h m m

section preorder

variable [IsPreorder Environment r]

theorem Keeps.leads {act : Run α} (h : Keeps Machine.environment act) : Leads r act := by
  intro m
  rw [h m]
  exact refl_of r _

theorem Leads.pure (a : α) : Leads r (pure a : Run α) :=
  (Keeps.pure a).leads

theorem Leads.fail (line : Nat) (fault : Fault) : Leads r (fail line fault : Run α) :=
  (Keeps.fail line fault).leads

theorem Leads.bind {x : Run α} {f : α → Run β} (hx : Leads r x) (hf : ∀ a, Leads r (f a)) :
    Leads r (x >>= f) := by
  intro m
  cases h : x m with
  | ok a m' =>
    rw [bind_ok h]
    exact trans_of r (hx.ok h) (hf a m')
  | error failure m' =>
    rw [bind_error h]
    exact hx.error h

/-- What leaves the environment alone may come first. -/
theorem Leads.after {x : Run α} {f : α → Run β} (hx : Keeps Machine.core x)
    (hf : ∀ a, Leads r (f a)) : Leads r (x >>= f) :=
  hx.environment.leads.bind hf

theorem leads_forEachFrom {act : Int → Run Unit} (h : ∀ i, Leads r (act i)) (count : Nat)
    (start : Int) : Leads r (forEachFrom act count start) := by
  induction count generalizing start with
  | zero => exact .pure ()
  | succ count ih => exact (h start).bind fun _ => ih (start + 1)

end preorder

/-! ## What statements are made of -/

theorem bind_allowed {settings : Settings} {line : Nat} {name : String} {value : Value}
    {m m' : Machine} (h : bind settings line name value m = .ok () m') :
    settings.enforceConstants → m.environment.isConstant name = false := by
  intro henforce
  rw [Run.bind, if_pos henforce] at h
  obtain ⟨env, mid, hwrite, -⟩ := bind_eq_ok.mp h
  cases hconstant : m.environment.isConstant name with
  | false => rfl
  | true =>
    rw [write_of_constant line hconstant] at hwrite
    cases hwrite

/-- A failed write leaves the environment as it was. -/
theorem writes_of_bind (settings : Settings) (line : Nat) (name : String) (value : Value) :
    Leads (Environment.Writes settings name) (bind settings line name value) := by
  intro m
  cases h : bind settings line name value m with
  | ok _ m' =>
    obtain ⟨log, hm'⟩ := bind_written h
    exact .inr ⟨bind_allowed h, value, congrArg Machine.environment hm'⟩
  | error failure m' =>
    exact .inl (congrArg Prod.fst (atomic_bind settings line name value h))

section parts

variable {settings : Settings} {name : String} (line : Nat)
variable (hallows : Environment.Allows settings r name)
include hallows

theorem leads_bind (value : Value) : Leads r (bind settings line name value) :=
  fun m => hallows (writes_of_bind settings line name value m)

variable [IsPreorder Environment r]

theorem leads_assign (value : Expr) (tag : Option TypeTag) :
    Leads r (assign settings line name value tag) :=
  .after (keeps_evaluate line value) fun v => .after (keeps_checkTag line name v tag) fun _ =>
    .after (keeps_note _) fun _ => leads_bind line hallows v

theorem leads_readInto (prompt : String) : Leads r (readInto settings line name prompt) :=
  .after (keeps_readNumber line prompt) fun _ => leads_bind line hallows _

theorem leads_drawInto (least greatest : Expr) :
    Leads r (drawInto settings line name least greatest) := by
  refine .after (keeps_integer line least) fun l => .after (keeps_integer line greatest) fun g => ?_
  split
  · exact .fail line _
  · refine .after (keeps_draw l g) fun drawn => .after (keeps_note _) fun _ => ?_
    exact leads_bind line hallows _

/-- Whatever the body of the function does is put back; what is left is writing the result. -/
theorem leads_call (descent : Descent) (args : List Expr) :
    Leads r (call settings descent line name args) := by
  refine .get fun m => ?_
  split
  · exact .fail line _
  · next routine _ =>
    split
    · exact .fail line _
    · refine .after (keeps_evaluateEach line args) fun values => ?_
      split
      · exact .fail line _
      · next enter =>
        have hactivate := (keeps_activate settings line routine values enter).map Prod.fst
        refine .after (keeps_note _) fun _ => hactivate.leads.bind fun value => ?_
        exact .after (keeps_note _) fun _ => leads_bind line hallows value

end parts

end Run

end DivisionScript
