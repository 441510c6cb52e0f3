import DivisionScript.Program.Basic

/-!
# Program, proved

The statements of a program at any depth, and programs with other lines. `relabel` replaces every
line of a tree by another one; what it makes of a tree is settled by the lines that stand in it.
-/

namespace DivisionScript

mutual

/-- A statement and all statements inside it, in the order of the text. -/
def Stmt.all : Stmt → List Stmt
  | .branch line condition thenBody elseBody =>
    .branch line condition thenBody elseBody :: (allOfEach thenBody ++ allOfEach elseBody)
  | .loop line name start stop body => .loop line name start stop body :: allOfEach body
  | .define line name params body result =>
    .define line name params body result :: allOfEach body
  | s => [s]

/-- The statements of a body and all statements inside them. -/
def allOfEach : List Stmt → List Stmt
  | [] => []
  | s :: rest => s.all ++ allOfEach rest

end

mutual

/-- A statement with every line replaced. -/
def Stmt.relabel (f : Nat → Nat) : Stmt → Stmt
  | .assign line name value tag => .assign (f line) name value tag
  | .print line value => .print (f line) value
  | .input line name prompt => .input (f line) name prompt
  | .branch line condition thenBody elseBody =>
    .branch (f line) condition (relabelEach f thenBody) (relabelEach f elseBody)
  | .loop line name start stop body => .loop (f line) name start stop (relabelEach f body)
  | .rand line name least greatest => .rand (f line) name least greatest
  | .define line name params body result =>
    .define (f line) name params (relabelEach f body) result
  | .call line name args => .call (f line) name args

/-- The statements of a body with every line replaced. -/
def relabelEach (f : Nat → Nat) : List Stmt → List Stmt
  | [] => []
  | s :: rest => s.relabel f :: relabelEach f rest

end

/-- A declaration with its line replaced. -/
def Decl.relabel (f : Nat → Nat) : Decl → Decl
  | .program line name => .program (f line) name
  | .author line name => .author (f line) name
  | .date line text => .date (f line) text
  | .const line name value => .const (f line) name value

/-- A program with every line replaced. -/
def Program.relabel (f : Nat → Nat) (p : Program) : Program :=
  ⟨p.declarations.map (Decl.relabel f), relabelEach f p.statements⟩

/-- The lines of the declarations and statements of a program. -/
def Program.lines (p : Program) : List Nat :=
  p.declarations.map Decl.line ++ (allOfEach p.statements).map Stmt.line

variable {f g : Nat → Nat}

@[simp] theorem length_relabelEach (f : Nat → Nat) (body : List Stmt) :
    (relabelEach f body).length = body.length := by
  induction body with
  | nil => rfl
  | cons s rest ih => rw [relabelEach, List.length_cons, List.length_cons, ih]

mutual

theorem Stmt.relabel_id : (s : Stmt) → s.relabel id = s
  | .assign .. | .print .. | .input .. | .rand .. | .call .. => rfl
  | .branch line condition thenBody elseBody => by
    rw [Stmt.relabel, relabelEach_id thenBody, relabelEach_id elseBody, id]
  | .loop line name start stop body => by rw [Stmt.relabel, relabelEach_id body, id]
  | .define line name params body result => by rw [Stmt.relabel, relabelEach_id body, id]

theorem relabelEach_id : (body : List Stmt) → relabelEach id body = body
  | [] => rfl
  | s :: rest => by rw [relabelEach, Stmt.relabel_id s, relabelEach_id rest]

end

theorem Program.relabel_id (p : Program) : p.relabel id = p := by
  have hdecl : Decl.relabel id = id := by
    funext d
    cases d <;> rfl
  rw [Program.relabel, hdecl, List.map_id, relabelEach_id]

theorem Stmt.mem_all (s : Stmt) : s ∈ s.all := by
  cases s <;> simp [Stmt.all]

mutual

/-- Only the lines of a statement and of those inside it count. -/
theorem Stmt.relabel_congr : (s : Stmt) → (∀ r ∈ s.all, f r.line = g r.line) →
    s.relabel f = s.relabel g
  | .assign line .. | .print line .. | .input line .. | .rand line .. | .call line .. => by
    intro h
    have hline : f line = g line := h _ (List.mem_singleton_self _)
    simp only [Stmt.relabel, hline]
  | .branch line condition thenBody elseBody => by
    intro h
    rw [Stmt.all, List.forall_mem_cons, List.forall_mem_append] at h
    obtain ⟨hline, hthen, helse⟩ := h
    rw [Stmt.relabel, Stmt.relabel, relabelEach_congr thenBody hthen,
      relabelEach_congr elseBody helse, show f line = g line from hline]
  | .loop line name start stop body => by
    intro h
    rw [Stmt.all, List.forall_mem_cons] at h
    rw [Stmt.relabel, Stmt.relabel, relabelEach_congr body h.2, show f line = g line from h.1]
  | .define line name params body result => by
    intro h
    rw [Stmt.all, List.forall_mem_cons] at h
    rw [Stmt.relabel, Stmt.relabel, relabelEach_congr body h.2, show f line = g line from h.1]

theorem relabelEach_congr : (body : List Stmt) → (∀ r ∈ allOfEach body, f r.line = g r.line) →
    relabelEach f body = relabelEach g body
  | [] => fun _ => rfl
  | s :: rest => by
    intro h
    rw [allOfEach, List.forall_mem_append] at h
    rw [relabelEach, relabelEach, Stmt.relabel_congr s h.1, relabelEach_congr rest h.2]

end

theorem Decl.relabel_congr (d : Decl) (h : f d.line = g d.line) : d.relabel f = d.relabel g := by
  cases d with
  | program line _ | author line _ | date line _ | const line _ _ =>
    have hline : f line = g line := h
    simp only [Decl.relabel, hline]

theorem Program.relabel_congr (p : Program) (h : ∀ line ∈ p.lines, f line = g line) :
    p.relabel f = p.relabel g := by
  rw [Program.lines, List.forall_mem_append, List.forall_mem_map, List.forall_mem_map] at h
  rw [Program.relabel, Program.relabel, relabelEach_congr p.statements h.2]
  refine congrArg (Program.mk · _) (List.map_congr_left fun d hd => ?_)
  exact d.relabel_congr (h.1 d hd)

end DivisionScript
