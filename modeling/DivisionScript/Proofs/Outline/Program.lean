import DivisionScript.Proofs.Outline.Expression

/-!
# Outline — Program

The outline of a program can be read back, but for the lines of its statements and declarations.
Each of them starts with a word of its own, and the indentation tells where a body ends.
-/

namespace DivisionScript

variable {level : Nat} {u v : List Char}

/-! ## Parts of statements -/

theorem bounded_tagOutline (tag : Option TypeTag) (u : List Char) :
    Bounded (tagOutline tag ++ ')' :: u) := by
  cases tag with
  | none => exact .parenthesis u
  | some tag => exact .space _

theorem tagOutline_inj {tag tag' : Option TypeTag}
    (h : tagOutline tag ++ ')' :: u = tagOutline tag' ++ ')' :: v) : tag = tag' ∧ u = v := by
  rcases tag with _ | _ | _ <;> rcases tag' with _ | _ | _ <;>
    simp [tagOutline, TypeTag.spelling] at h ⊢ <;> exact h

theorem spacedNames_append (names : List String) (u : List Char) :
    spacedNames names ++ u = spacedOnto (names.map Expr.identifier) u := by
  induction names with
  | nil => rfl
  | cons name rest ih =>
    cases rest with
    | nil => rfl
    | cons name' rest =>
      rw [spacedNames, List.append_assoc, List.cons_append, ih, List.map_cons, List.map_cons]
      · rfl
      · simp

theorem spacedNames_inj {names names' : List String} (hnames : ∀ name ∈ names, IsWord name)
    (hnames' : ∀ name ∈ names', IsWord name)
    (h : spacedNames names ++ ']' :: u = spacedNames names' ++ ']' :: v) :
    names = names' ∧ u = v := by
  have hlegible {names : List String} (hnames : ∀ name ∈ names, IsWord name) :
      ∀ e ∈ names.map Expr.identifier, e.Legible :=
    List.forall_mem_map.mpr hnames
  rw [spacedNames_append, spacedNames_append] at h
  obtain ⟨hsame, hrest⟩ := spacedOnto_inj (.inr rfl) (fun e he => (hlegible hnames e he).readable)
    (hlegible hnames) (hlegible hnames') h
  have hinj : Function.Injective Expr.identifier := fun _ _ => Expr.identifier.inj
  exact ⟨hinj.list_map hsame, hrest⟩

/-- The word that the outline of a statement starts with. -/
def Stmt.word : Stmt → List Char
  | .assign .. => ['=']
  | .print .. => ['p', 'r', 'i', 'n', 't']
  | .input .. => ['i', 'n', 'p', 'u', 't']
  | .branch .. => ['i', 'f']
  | .loop .. => ['l', 'o', 'o', 'p']
  | .rand .. => ['r', 'a', 'n', 'd']
  | .define .. => ['f', 'u', 'n', 'c']
  | .call .. => ['c', 'a', 'l', 'l']

theorem Stmt.space_notMem_word (s : Stmt) : ' ' ∉ s.word := by
  cases s <;> simp [word]

/-- What follows the first branch of a conditional. -/
def elseOnto (level : Nat) : List Stmt → List Char → List Char
  | [], tail => indentation level ++ ')' :: '\n' :: tail
  | s :: rest, tail =>
    indentation level ++ 'e' :: 'l' :: 's' :: 'e' :: '\n' ::
      bodyOutlineOnto (level + 1) (s :: rest) (indentation level ++ ')' :: '\n' :: tail)

theorem Stmt.outlineOnto_branch (level line : Nat) (condition : Expr)
    (thenBody elseBody : List Stmt) (u : List Char) :
    (Stmt.branch line condition thenBody elseBody).outlineOnto level u =
      indentation level ++ (opening ['i', 'f'] ++ condition.outlineOnto
        ('\n' :: bodyOutlineOnto (level + 1) thenBody (elseOnto level elseBody u))) := by
  cases elseBody <;>
    simp only [Stmt.outlineOnto, elseOnto, List.append_assoc, List.cons_append, List.nil_append]

theorem Stmt.outlineOnto_start (level : Nat) (s : Stmt) (u : List Char) :
    ∃ rest, s.outlineOnto level u = indentation level ++ (opening s.word ++ rest) := by
  cases s with
  | branch line condition thenBody elseBody => exact ⟨_, outlineOnto_branch ..⟩
  | _ =>
    simp only [Stmt.outlineOnto, List.append_assoc]
    exact ⟨_, rfl⟩

/-- Statements of one level whose outlines agree start with one word. -/
theorem Stmt.word_eq {s s' : Stmt} (h : s.outlineOnto level u = s'.outlineOnto level v) :
    s.word = s'.word := by
  obtain ⟨rest, hrest⟩ := s.outlineOnto_start level u
  obtain ⟨rest', hrest'⟩ := s'.outlineOnto_start level v
  rw [hrest, hrest', List.append_cancel_left_eq] at h
  exact (opening_inj s.space_notMem_word s'.space_notMem_word h).1

/-! ## Statements -/

/-- No statement of the level starts the text. -/
def Closes (level : Nat) (text : List Char) : Prop :=
  ∀ rest, text ≠ indentation level ++ '(' :: rest

/-- A body ends where a line is indented less. -/
theorem closes_outer {c : Char} (hc : c ≠ ' ') (level : Nat) (u : List Char) :
    Closes (level + 1) (indentation level ++ c :: u) := by
  intro rest h
  have hdeeper : indentation (level + 1) = indentation level ++ [' ', ' '] := by
    rw [indentation, indentation, Nat.mul_succ, List.replicate_add]
    rfl
  rw [hdeeper, List.append_assoc, List.append_cancel_left_eq] at h
  exact hc (List.cons_eq_cons.mp h).1

theorem Stmt.not_closes (s : Stmt) (level : Nat) (u : List Char) :
    ¬ Closes level (s.outlineOnto level u) := by
  intro h
  obtain ⟨rest, hrest⟩ := s.outlineOnto_start level u
  exact h _ hrest

theorem closes_elseOnto (level : Nat) (body : List Stmt) (u : List Char) :
    Closes (level + 1) (elseOnto level body u) := by
  cases body <;> exact closes_outer (by decide) level _

/-- The outlines of two bodies, each in front of a text that closes it, agree only if the bodies are
the same but for their lines. -/
def ToldApart (level : Nat) (body body' : List Stmt) : Prop :=
  ∀ ⦃u v⦄, Closes level u → Closes level v →
    bodyOutlineOnto level body u = bodyOutlineOnto level body' v →
      relabelEach (fun _ => 0) body = relabelEach (fun _ => 0) body' ∧ u = v

section body

variable {body body' : List Stmt}

/-- A body that ends with a closing parenthesis of its statement. -/
theorem ToldApart.closed (hbody : ToldApart (level + 1) body body')
    (h : bodyOutlineOnto (level + 1) body (indentation level ++ ')' :: '\n' :: u) =
      bodyOutlineOnto (level + 1) body' (indentation level ++ ')' :: '\n' :: v)) :
    relabelEach (fun _ => 0) body = relabelEach (fun _ => 0) body' ∧ u = v := by
  obtain ⟨hsame, hrest⟩ :=
    hbody (closes_outer (by decide) level _) (closes_outer (by decide) level _) h
  exact ⟨hsame, by simpa using hrest⟩

/-- Whether a conditional has a second branch is told by the word before it. -/
theorem elseOnto_inj (hbody : ToldApart (level + 1) body body')
    (h : elseOnto level body u = elseOnto level body' v) :
    relabelEach (fun _ => 0) body = relabelEach (fun _ => 0) body' ∧ u = v := by
  cases body <;> cases body' <;>
    simp only [elseOnto, List.append_cancel_left_eq, List.cons.injEq, true_and] at h
  · exact ⟨rfl, h⟩
  · exact absurd h.1 (by decide)
  · exact absurd h.1 (by decide)
  · exact hbody.closed h

end body

/-! Each kind of statement by itself; those with bodies take it that the bodies are told apart. -/

section kinds

variable {line line' : Nat} {name name' : String}

theorem Stmt.outlineOnto_assign_inj {value value' : Expr} {tag tag' : Option TypeTag}
    (hs : (assign line name value tag).Legible) (hs' : (assign line' name' value' tag').Legible)
    (h : (assign line name value tag).outlineOnto level u =
      (assign line' name' value' tag').outlineOnto level v) :
    name = name' ∧ value = value' ∧ tag = tag' ∧ u = v := by
  simp only [outlineOnto, List.append_assoc, List.append_cancel_left_eq] at h
  obtain ⟨hname, hvalue⟩ :=
    (hs.1 name List.mem_cons_self).before_space (hs'.1 name' List.mem_cons_self) h
  obtain ⟨hsame, htag⟩ := (hs.2 value List.mem_cons_self).readable
    (hs'.2 value' List.mem_cons_self) (bounded_tagOutline ..) (bounded_tagOutline ..) hvalue
  obtain ⟨htags, hrest⟩ := tagOutline_inj htag
  exact ⟨hname, hsame, htags, (List.cons_eq_cons.mp hrest).2⟩

theorem Stmt.outlineOnto_print_inj {value value' : Expr} (hs : (print line value).Legible)
    (hs' : (print line' value').Legible)
    (h : (print line value).outlineOnto level u = (print line' value').outlineOnto level v) :
    value = value' ∧ u = v := by
  simp only [outlineOnto, List.append_assoc, List.append_cancel_left_eq] at h
  obtain ⟨hsame, hrest⟩ := (hs.2 value List.mem_cons_self).readable
    (hs'.2 value' List.mem_cons_self) (.parenthesis _) (.parenthesis _) h
  exact ⟨hsame, by simpa using hrest⟩

theorem Stmt.outlineOnto_input_inj {prompt prompt' : String} (hs : (input line name prompt).Legible)
    (hs' : (input line' name' prompt').Legible)
    (h : (input line name prompt).outlineOnto level u =
      (input line' name' prompt').outlineOnto level v) :
    name = name' ∧ prompt = prompt' ∧ u = v := by
  simp only [outlineOnto, List.append_assoc, List.append_cancel_left_eq] at h
  obtain ⟨hname, hprompt⟩ :=
    (hs.1 name List.mem_cons_self).before_space (hs'.1 name' List.mem_cons_self) h
  obtain ⟨hsame, hrest⟩ := quotedOnto_inj hprompt
  exact ⟨hname, hsame, by simpa using hrest⟩

theorem Stmt.outlineOnto_branch_inj {condition condition' : Expr}
    {thenBody thenBody' elseBody elseBody' : List Stmt}
    (hs : (branch line condition thenBody elseBody).Legible)
    (hs' : (branch line' condition' thenBody' elseBody').Legible)
    (hthen : ToldApart (level + 1) thenBody thenBody')
    (helse : ToldApart (level + 1) elseBody elseBody')
    (h : (branch line condition thenBody elseBody).outlineOnto level u =
      (branch line' condition' thenBody' elseBody').outlineOnto level v) :
    condition = condition' ∧
      relabelEach (fun _ => 0) thenBody = relabelEach (fun _ => 0) thenBody' ∧
      relabelEach (fun _ => 0) elseBody = relabelEach (fun _ => 0) elseBody' ∧ u = v := by
  simp only [outlineOnto_branch, List.append_cancel_left_eq] at h
  obtain ⟨hcondition, hbodies⟩ := (hs.2 condition List.mem_cons_self).readable
    (hs'.2 condition' List.mem_cons_self) (.lineFeed _) (.lineFeed _) h
  obtain ⟨hsame, hothers⟩ := hthen (closes_elseOnto level _ u) (closes_elseOnto level _ v)
    (List.cons_eq_cons.mp hbodies).2
  exact ⟨hcondition, hsame, elseOnto_inj helse hothers⟩

theorem Stmt.outlineOnto_loop_inj {start start' stop stop' : Expr} {body body' : List Stmt}
    (hs : (loop line name start stop body).Legible)
    (hs' : (loop line' name' start' stop' body').Legible)
    (hbody : ToldApart (level + 1) body body')
    (h : (loop line name start stop body).outlineOnto level u =
      (loop line' name' start' stop' body').outlineOnto level v) :
    name = name' ∧ start = start' ∧ stop = stop' ∧
      relabelEach (fun _ => 0) body = relabelEach (fun _ => 0) body' ∧ u = v := by
  simp only [outlineOnto, List.append_assoc, List.append_cancel_left_eq] at h
  obtain ⟨hname, hstart⟩ :=
    (hs.1 name List.mem_cons_self).before_space (hs'.1 name' List.mem_cons_self) h
  obtain ⟨hfirst, hstop⟩ := (hs.2 start List.mem_cons_self).readable
    (hs'.2 start' List.mem_cons_self) (.space _) (.space _) hstart
  obtain ⟨hlast, hrest⟩ := (hs.2 stop (by simp [operands])).readable
    (hs'.2 stop' (by simp [operands])) (.lineFeed _) (.lineFeed _) (List.cons_eq_cons.mp hstop).2
  exact ⟨hname, hfirst, hlast, hbody.closed (List.cons_eq_cons.mp hrest).2⟩

theorem Stmt.outlineOnto_rand_inj {least least' greatest greatest' : Expr}
    (hs : (rand line name least greatest).Legible)
    (hs' : (rand line' name' least' greatest').Legible)
    (h : (rand line name least greatest).outlineOnto level u =
      (rand line' name' least' greatest').outlineOnto level v) :
    name = name' ∧ least = least' ∧ greatest = greatest' ∧ u = v := by
  simp only [outlineOnto, List.append_assoc, List.append_cancel_left_eq] at h
  obtain ⟨hname, hleast⟩ :=
    (hs.1 name List.mem_cons_self).before_space (hs'.1 name' List.mem_cons_self) h
  obtain ⟨hlow, hgreatest⟩ := (hs.2 least List.mem_cons_self).readable
    (hs'.2 least' List.mem_cons_self) (.space _) (.space _) hleast
  obtain ⟨hhigh, hrest⟩ := (hs.2 greatest (by simp [operands])).readable
    (hs'.2 greatest' (by simp [operands])) (.parenthesis _) (.parenthesis _)
    (List.cons_eq_cons.mp hgreatest).2
  exact ⟨hname, hlow, hhigh, by simpa using hrest⟩

theorem Stmt.outlineOnto_define_inj {params params' : List String} {body body' : List Stmt}
    {result result' : String} (hs : (define line name params body result).Legible)
    (hs' : (define line' name' params' body' result').Legible)
    (hbody : ToldApart (level + 1) body body')
    (h : (define line name params body result).outlineOnto level u =
      (define line' name' params' body' result').outlineOnto level v) :
    name = name' ∧ params = params' ∧ result = result' ∧
      relabelEach (fun _ => 0) body = relabelEach (fun _ => 0) body' ∧ u = v := by
  simp only [outlineOnto, List.append_assoc, List.append_cancel_left_eq, List.cons_append,
    List.nil_append] at h
  simp only [Legible, names, List.forall_mem_cons] at hs hs'
  obtain ⟨hname, hparams⟩ := hs.1.1.before_space hs'.1.1 h
  obtain ⟨hsame, hresult⟩ :=
    spacedNames_inj hs.1.2.2 hs'.1.2.2 (List.cons_eq_cons.mp hparams).2
  simp only [List.cons.injEq, true_and] at hresult
  obtain ⟨hresults, hrest⟩ := hs.1.2.1.append_inj hs'.1.2.1 (.lineFeed _) (.lineFeed _) hresult
  exact ⟨hname, hsame, hresults, hbody.closed (List.cons_eq_cons.mp hrest).2⟩

theorem Stmt.outlineOnto_call_inj {args args' : List Expr} (hs : (call line name args).Legible)
    (hs' : (call line' name' args').Legible)
    (h : (call line name args).outlineOnto level u = (call line' name' args').outlineOnto level v) :
    name = name' ∧ args = args' ∧ u = v := by
  simp only [outlineOnto, List.append_assoc, List.append_cancel_left_eq, List.cons_append,
    List.nil_append] at h
  obtain ⟨hname, hargs⟩ :=
    (hs.1 name List.mem_cons_self).before_space (hs'.1 name' List.mem_cons_self) h
  have hread : ∀ e ∈ args, e.Readable := fun e he => (hs.2 e he).readable
  obtain ⟨hsame, hrest⟩ :=
    spacedOnto_inj (.inr rfl) hread hs.2 hs'.2 (List.cons_eq_cons.mp hargs).2
  exact ⟨hname, hsame, by simpa using hrest⟩

end kinds

-- A body is smaller than the statement that it belongs to, and a statement than a body it starts.
mutual

/-- The outline of a statement can be read back, but for its line and those inside it. -/
theorem Stmt.outlineOnto_inj {level : Nat} {s s' : Stmt} {u v : List Char}
    (hs : ∀ r ∈ s.all, r.Legible) (hs' : ∀ r ∈ s'.all, r.Legible)
    (h : s.outlineOnto level u = s'.outlineOnto level v) :
    s.relabel (fun _ => 0) = s'.relabel (fun _ => 0) ∧ u = v := by
  have hword := Stmt.word_eq h
  have hself := hs s s.mem_all
  have hself' := hs' s' s'.mem_all
  cases s with
  | assign line name value tag =>
    cases s' with
    | assign =>
      obtain ⟨rfl, rfl, rfl, hrest⟩ := Stmt.outlineOnto_assign_inj hself hself' h
      exact ⟨rfl, hrest⟩
    | _ => cases hword
  | print line value =>
    cases s' with
    | print =>
      obtain ⟨rfl, hrest⟩ := Stmt.outlineOnto_print_inj hself hself' h
      exact ⟨rfl, hrest⟩
    | _ => cases hword
  | input line name prompt =>
    cases s' with
    | input =>
      obtain ⟨rfl, rfl, hrest⟩ := Stmt.outlineOnto_input_inj hself hself' h
      exact ⟨rfl, hrest⟩
    | _ => cases hword
  | branch line condition thenBody elseBody =>
    cases s' with
    | branch line' condition' thenBody' elseBody' =>
      rw [Stmt.all, List.forall_mem_cons, List.forall_mem_append] at hs hs'
      obtain ⟨rfl, hthen, helse, hrest⟩ := Stmt.outlineOnto_branch_inj hself hself'
        (bodyOutlineOnto_inj hs.2.1 hs'.2.1) (bodyOutlineOnto_inj hs.2.2 hs'.2.2) h
      rw [Stmt.relabel, Stmt.relabel, hthen, helse]
      exact ⟨rfl, hrest⟩
    | _ => cases hword
  | loop line name start stop body =>
    cases s' with
    | loop line' name' start' stop' body' =>
      rw [Stmt.all, List.forall_mem_cons] at hs hs'
      obtain ⟨rfl, rfl, rfl, hbody, hrest⟩ :=
        Stmt.outlineOnto_loop_inj hself hself' (bodyOutlineOnto_inj hs.2 hs'.2) h
      rw [Stmt.relabel, Stmt.relabel, hbody]
      exact ⟨rfl, hrest⟩
    | _ => cases hword
  | rand line name least greatest =>
    cases s' with
    | rand =>
      obtain ⟨rfl, rfl, rfl, hrest⟩ := Stmt.outlineOnto_rand_inj hself hself' h
      exact ⟨rfl, hrest⟩
    | _ => cases hword
  | define line name params body result =>
    cases s' with
    | define line' name' params' body' result' =>
      rw [Stmt.all, List.forall_mem_cons] at hs hs'
      obtain ⟨rfl, rfl, rfl, hbody, hrest⟩ :=
        Stmt.outlineOnto_define_inj hself hself' (bodyOutlineOnto_inj hs.2 hs'.2) h
      rw [Stmt.relabel, Stmt.relabel, hbody]
      exact ⟨rfl, hrest⟩
    | _ => cases hword
  | call line name args =>
    cases s' with
    | call =>
      obtain ⟨rfl, rfl, hrest⟩ := Stmt.outlineOnto_call_inj hself hself' h
      exact ⟨rfl, hrest⟩
    | _ => cases hword
termination_by sizeOf s

theorem bodyOutlineOnto_inj {level : Nat} {body body' : List Stmt}
    (hbody : ∀ r ∈ allOfEach body, r.Legible) (hbody' : ∀ r ∈ allOfEach body', r.Legible) :
    ToldApart level body body' := by
  intro u v hu hv h
  cases body with
  | nil =>
    cases body' with
    | nil => exact ⟨rfl, h⟩
    | cons s' rest' =>
      rw [bodyOutlineOnto, bodyOutlineOnto] at h
      exact (s'.not_closes level _ (h ▸ hu)).elim
  | cons s rest =>
    cases body' with
    | nil =>
      rw [bodyOutlineOnto, bodyOutlineOnto] at h
      exact (s.not_closes level _ (h ▸ hv)).elim
    | cons s' rest' =>
      rw [allOfEach, List.forall_mem_append] at hbody hbody'
      obtain ⟨hsame, hrest⟩ := Stmt.outlineOnto_inj hbody.1 hbody'.1 h
      obtain ⟨hsames, htail⟩ := bodyOutlineOnto_inj hbody.2 hbody'.2 hu hv hrest
      exact ⟨congrArg₂ List.cons hsame hsames, htail⟩
termination_by sizeOf body

end

/-! ## Declarations and programs -/

/-- The word that the outline of a declaration starts with. -/
def Decl.word : Decl → List Char
  | .program .. => ['p', 'r', 'o', 'g', 'r', 'a', 'm']
  | .author .. => ['a', 'u', 't', 'h', 'o', 'r']
  | .date .. => ['d', 'a', 't', 'e']
  | .const .. => ['c', 'o', 'n', 's', 't']

theorem Decl.space_notMem_word (d : Decl) : ' ' ∉ d.word := by
  cases d <;> simp [word]

theorem Decl.outlineOnto_start (d : Decl) (u : List Char) :
    ∃ rest, d.outlineOnto u = opening d.word ++ rest := by
  cases d with
  | const => exact ⟨_, List.append_assoc ..⟩
  | _ => exact ⟨_, rfl⟩

theorem Decl.word_ne (d : Decl) (s : Stmt) : d.word ≠ s.word := by
  cases d <;> cases s <;> simp [Decl.word, Stmt.word]

/-- The outline of a declaration can be read back, but for its line. -/
theorem Decl.outlineOnto_inj {d d' : Decl} (hd : d.Legible) (hd' : d'.Legible)
    (h : d.outlineOnto u = d'.outlineOnto v) :
    d.relabel (fun _ => 0) = d'.relabel (fun _ => 0) ∧ u = v := by
  have hword : d.word = d'.word := by
    obtain ⟨rest, hrest⟩ := d.outlineOnto_start u
    obtain ⟨rest', hrest'⟩ := d'.outlineOnto_start v
    rw [hrest, hrest'] at h
    exact (opening_inj d.space_notMem_word d'.space_notMem_word h).1
  cases d with
  | program line name =>
    cases d' with
    | program line' name' =>
      rw [Decl.outlineOnto, Decl.outlineOnto, List.append_cancel_left_eq] at h
      obtain ⟨rfl, hrest⟩ := quotedOnto_inj h
      exact ⟨rfl, by simpa using hrest⟩
    | _ => cases hword
  | author line name =>
    cases d' with
    | author line' name' =>
      rw [Decl.outlineOnto, Decl.outlineOnto, List.append_cancel_left_eq] at h
      obtain ⟨rfl, hrest⟩ := quotedOnto_inj h
      exact ⟨rfl, by simpa using hrest⟩
    | _ => cases hword
  | date line text =>
    cases d' with
    | date line' text' =>
      rw [Decl.outlineOnto, Decl.outlineOnto, List.append_cancel_left_eq] at h
      obtain ⟨rfl, hrest⟩ := quotedOnto_inj h
      exact ⟨rfl, by simpa using hrest⟩
    | _ => cases hword
  | const line name value =>
    cases d' with
    | const line' name' value' =>
      simp only [Decl.outlineOnto, List.append_assoc, List.append_cancel_left_eq] at h
      obtain ⟨rfl, hvalue⟩ :=
        (hd.1 name List.mem_cons_self).before_space (hd'.1 name' List.mem_cons_self) h
      obtain ⟨rfl, hrest⟩ := (hd.2 value List.mem_cons_self).readable
        (hd'.2 value' List.mem_cons_self) (.parenthesis _) (.parenthesis _) hvalue
      exact ⟨rfl, by simpa using hrest⟩
    | _ => cases hword

theorem Decl.outlineOnto_ne_body (d : Decl) (u : List Char) (body : List Stmt) :
    d.outlineOnto u ≠ bodyOutlineOnto 0 body [] := by
  intro h
  obtain ⟨rest, hrest⟩ := d.outlineOnto_start u
  rw [hrest] at h
  cases body with
  | nil => cases h
  | cons s rest' =>
    obtain ⟨rest'', hstatement⟩ := s.outlineOnto_start 0 (bodyOutlineOnto 0 rest' [])
    rw [bodyOutlineOnto, hstatement] at h
    exact d.word_ne s (opening_inj d.space_notMem_word s.space_notMem_word h).1

/-- Where the declarations end is told by the word of the first statement. -/
theorem declarations_inj {ds ds' : List Decl} {body body' : List Stmt}
    (hds : ∀ d ∈ ds, d.Legible) (hds' : ∀ d ∈ ds', d.Legible)
    (h : ds.foldr Decl.outlineOnto (bodyOutlineOnto 0 body []) =
      ds'.foldr Decl.outlineOnto (bodyOutlineOnto 0 body' [])) :
    ds.map (Decl.relabel fun _ => 0) = ds'.map (Decl.relabel fun _ => 0) ∧
      bodyOutlineOnto 0 body [] = bodyOutlineOnto 0 body' [] := by
  induction ds generalizing ds' with
  | nil =>
    cases ds' with
    | nil => exact ⟨rfl, h⟩
    | cons d' rest' => exact absurd h.symm (d'.outlineOnto_ne_body _ _)
  | cons d rest ih =>
    cases ds' with
    | nil => exact absurd h (d.outlineOnto_ne_body _ _)
    | cons d' rest' =>
      rw [List.forall_mem_cons] at hds hds'
      obtain ⟨hsame, hrest⟩ := Decl.outlineOnto_inj hds.1 hds'.1 h
      obtain ⟨hsames, hbodies⟩ := ih hds.2 hds'.2 hrest
      exact ⟨congrArg₂ List.cons hsame hsames, hbodies⟩

/-- The outline of a legible program can be read back, but for its lines. -/
theorem Program.outline_inj {p q : Program} (hp : p.Legible) (hq : q.Legible)
    (h : p.outline = q.outline) : p.relabel (fun _ => 0) = q.relabel (fun _ => 0) := by
  have hclosed : Closes 0 [] := fun _ => nofun
  obtain ⟨hdeclarations, hbodies⟩ := declarations_inj hp.declarations hq.declarations h
  obtain ⟨hstatements, -⟩ :=
    bodyOutlineOnto_inj hp.statements hq.statements hclosed hclosed hbodies
  exact congrArg₂ Program.mk hdeclarations hstatements

/-- The outline tells the program: two programs that texts spell, with no literal too large to be
finite, differ in their lines alone if they have one outline. -/
theorem outline_determines_program {source source' : String} {p q : Program}
    (hp : (Source.program source).result = .ok p) (hq : (Source.program source').result = .ok q)
    (hpfinite : ∀ x ∈ p.numbers, x.isFinite) (hqfinite : ∀ x ∈ q.numbers, x.isFinite)
    (h : p.outline = q.outline) : p.relabel (fun _ => 0) = q.relabel (fun _ => 0) :=
  Program.outline_inj (Program.legible_of_source hp hpfinite)
    (Program.legible_of_source hq hqfinite) h

/-- A negation of a difference on the first line, and on the second one. -/
theorem outline_of_minus_signs :
    let source := "dynamic division print -(x-1);"
    let source' := "dynamic division\nprint - ( x - 1 ) ;"
    let printed (line : Nat) : Program := ⟨[], [.print line (.negate (.group
      (.sum (.identifier "x") .sub (.number (Number.ofDecimal 1 0)))))]⟩
    (Source.program source).result = .ok (printed 1) ∧
    (Source.program source').result = .ok (printed 2) ∧
    (printed 1).outline = (printed 2).outline ∧
    (printed 1).relabel (fun _ => 0) = (printed 2).relabel (fun _ => 0) := by
  intro source source' printed
  let tokens (line : Nat) : List Token :=
    [⟨.keyword .dynamic, "dynamic", 1⟩, ⟨.keyword .division, "division", 1⟩,
      ⟨.keyword .print, "print", line⟩, ⟨.symbol .minus, "-", line⟩,
      ⟨.symbol .leftParen, "(", line⟩, ⟨.identifier, "x", line⟩, ⟨.symbol .minus, "-", line⟩,
      ⟨.number (Number.ofDecimal 1 0), "1", line⟩, ⟨.symbol .rightParen, ")", line⟩,
      ⟨.symbol .semicolon, ";", line⟩, ⟨.endOfText, "", line⟩]
  have ⟨hscan, hscan'⟩ : Token.scanAll source = .ok (tokens 1) ∧
      Token.scanAll source' = .ok (tokens 2) := by
    constructor <;>
      simp [Token.scanAll, Token.collect, Except.map, Token.scan, Token.scanFrom, Token.lineFeeds,
        Piece.first, Piece.isSeparator, Piece.word, Piece.isWordStart, Piece.isWordPart,
        Piece.symbol?, Piece.cut, Piece.wordKind, Keyword.ofSpelling?, Keyword.all,
        Keyword.spelling, Symbol.spelling, Piece.number, Number.natOfDigits, source, source',
        tokens]
  have hderives (line : Nat) : Grammar.DerivesProgram 255 1024 (tokens line) (printed line) := by
    have hname : Grammar.Derives .sum 1020 [⟨.identifier, "x", line⟩] (.identifier "x") :=
      .sumOne (.termOne (.powerOne (.unaryOne (.identifier rfl))))
    have hone : Grammar.Derives .term 1020 [⟨.number (Number.ofDecimal 1 0), "1", line⟩]
        (.number (Number.ofDecimal 1 0)) :=
      .termOne (.powerOne (.unaryOne (.number rfl)))
    have hdifference : Grammar.Derives .sum 1020
        ([⟨.identifier, "x", line⟩] ++ ⟨.symbol .minus, "-", line⟩ :: _) _ :=
      .sum .sub hname rfl hone
    have hgroup : Grammar.Derives .primary 1021
        (⟨.symbol .leftParen, "(", line⟩ :: (_ ++ [⟨.symbol .rightParen, ")", line⟩])) _ :=
      .group rfl (.of_sum hdifference) rfl
    have hnegation : Grammar.Derives .unary 1022 (⟨.symbol .minus, "-", line⟩ :: _) _ :=
      .negate rfl (.operand (.unaryOne hgroup))
    have hprint : Grammar.DerivesStatement 255 1024
        (⟨.keyword .print, "print", line⟩ :: (_ ++ [⟨.symbol .semicolon, ";", line⟩])) _ :=
      .print rfl (.of_unary hnegation) rfl
    have hprogram : Grammar.DerivesProgram 255 1024
        ([] ++ ⟨.keyword .dynamic, "dynamic", 1⟩ :: ⟨.keyword .division, "division", 1⟩ ::
          (_ ++ [⟨.endOfText, "", line⟩])) _ :=
      .mk .absent rfl rfl (.cons hprint .nil) rfl
    exact hprogram
  have hresult {source : String} {line : Nat} (hscan : Token.scanAll source = .ok (tokens line)) :
      (Source.program source).result = .ok (printed line) :=
    Source.program_of_derives hscan (hderives line)
  have hfinite (line : Nat) : ∀ x ∈ (printed line).numbers, x.isFinite := by
    have hone : (Number.ofDecimal 1 0).isFinite := by decide
    simpa [printed, Program.numbers, Stmt.all, allOfEach, Stmt.operands, Expr.numbers] using hone
  have hsame := outline_determines_program (hresult hscan) (hresult hscan') (hfinite 1) (hfinite 2)
    rfl
  exact ⟨hresult hscan, hresult hscan', rfl, hsame⟩

end DivisionScript
