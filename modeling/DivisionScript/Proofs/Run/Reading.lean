import DivisionScript.Proofs.Run.Counting
import DivisionScript.Proofs.Run.Intake
import DivisionScript.Proofs.Run.Mute
import DivisionScript.Proofs.Run.Sources

/-!
# Run — Reading

What is taken from the input. A statement that reads a number shows its prompt, and if that fits, it
takes the next line, whatever the line holds; nothing else takes anything. So a run whose input has
been used up when it ends, and which has never been without a line where one was to be read, goes on
in the same way from every longer input and leaves what was added.
-/

namespace DivisionScript

open Run

/-! ## One number -/

/-- The number that a line holds. -/
def Input.number (bytes : List UInt8) : Except Fault Float :=
  match lineText? bytes with
  | none => .error .inputNotText
  | some text =>
    match Number.ofString? (Text.trim text) with
    | some x => .ok x
    | none => .error (.inputNotNumber (Text.trim text))

/-- The output after a prompt, if there is one, and whether all of the prompt fits. -/
def Output.asked (prompt : String) (output : Output) : Output × Bool :=
  if prompt = "" then (output, true) else output.write (prompt ++ ": ")

/-- The state once a statement that reads a number has shown its prompt. -/
def Machine.asking (line : Nat) (prompt : String) (m : Machine) : Machine :=
  { m with output := (m.output.asked prompt).1, log := m.log.note (.executing line) }

/-- The statement reads a number, and its prompt fits into the output. -/
def Stmt.takesLine (output : Output) : Stmt → Bool
  | .input _ _ prompt => (output.asked prompt).2
  | _ => false

/-- The next step comes to read a line. -/
def Config.takesLine (c : Config) : Bool :=
  c.next?.any (·.takesLine c.machine.output)

section number

variable {settings : Settings} {m : Machine} {line : Nat} {name prompt : String}
variable {bytes : List UInt8} {rest : List (List UInt8)}

/-- Without a line, there is nothing to read. -/
theorem readNumber_of_empty (line : Nat) (h : m.input.lines = []) :
    readNumber line "" m = .error ⟨.endOfInput, line⟩ m := by
  have hnext : m.input.next? = none := by rw [Input.next?, h]
  have hline : readLine line m = .error ⟨.endOfInput, line⟩ m := by rw [readLine, hnext]
  rw [readNumber_unprompted, bind_error hline]

/-- The next line is taken, whatever it holds. -/
theorem readNumber_of_cons (line : Nat) (h : m.input.lines = bytes :: rest) :
    readNumber line "" m =
      match Input.number bytes with
      | .ok x => .ok x { m with input := ⟨rest⟩, log := m.log.note (.inputRead x) }
      | .error fault => .error ⟨fault, line⟩ { m with input := ⟨rest⟩ } := by
  have hnext : m.input.next? = some (bytes, ⟨rest⟩) := by rw [Input.next?, h]
  rw [readNumber_unprompted, Input.number]
  cases htext : Input.lineText? bytes with
  | none =>
    have hline : readLine line m = .error ⟨.inputNotText, line⟩ { m with input := ⟨rest⟩ } := by
      rw [readLine, hnext]
      dsimp only
      rw [htext]
    rw [bind_error hline]
  | some text =>
    have hline : readLine line m = .ok text { m with input := ⟨rest⟩ } := by
      rw [readLine, hnext]
      dsimp only
      rw [htext]
    rw [bind_ok hline]
    dsimp only
    cases Number.ofString? (Text.trim text) <;> rfl

/-- The prompt comes first. If it does not fit, nothing is read. -/
theorem readNumber_asked (line : Nat) (prompt : String) (m : Machine) :
    readNumber line prompt m =
      if (m.output.asked prompt).2 then
        readNumber line "" { m with output := (m.output.asked prompt).1 }
      else
        .error ⟨.outputFull, line⟩ { m with output := (m.output.asked prompt).1 } := by
  by_cases hprompt : prompt = ""
  · rw [hprompt]
    rfl
  · rw [readNumber_eq line hprompt, Output.asked, if_neg hprompt]
    cases hfits : (m.output.write (prompt ++ ": ")).2 with
    | true =>
      have hwrite : write line (prompt ++ ": ") m =
          .ok () { m with output := (m.output.write (prompt ++ ": ")).1 } := if_pos hfits
      exact bind_ok hwrite
    | false =>
      have hwrite : write line (prompt ++ ": ") m =
          .error ⟨.outputFull, line⟩ { m with output := (m.output.write (prompt ++ ": ")).1 } :=
        if_neg (Bool.not_eq_true _ |>.mpr hfits)
      exact bind_error hwrite

theorem readNumber_asking (line : Nat) (prompt : String) (m : Machine) :
    readNumber line prompt { m with log := m.log.note (.executing line) } =
      if (m.output.asked prompt).2 then readNumber line "" (m.asking line prompt)
      else .error ⟨.outputFull, line⟩ (m.asking line prompt) :=
  readNumber_asked line prompt { m with log := m.log.note (.executing line) }

/-- A prompt that does not fit takes nothing from the input. -/
theorem readInto_of_full (h : (m.output.asked prompt).2 = false) :
    readInto settings line name prompt { m with log := m.log.note (.executing line) } =
      .error ⟨.outputFull, line⟩ (m.asking line prompt) := by
  have hnumber := readNumber_asking line prompt m
  rw [h, if_neg Bool.false_ne_true] at hnumber
  exact bind_error hnumber

/-- The prompt is shown also where there is no line. -/
theorem readInto_of_empty (h : (m.output.asked prompt).2) (hlines : m.input.lines = []) :
    readInto settings line name prompt { m with log := m.log.note (.executing line) } =
      .error ⟨.endOfInput, line⟩ (m.asking line prompt) := by
  have hnumber := readNumber_asking line prompt m
  rw [if_pos h, readNumber_of_empty (m := m.asking line prompt) line hlines] at hnumber
  exact bind_error hnumber

/-- A line that holds no number is taken, and nothing is written. -/
theorem readInto_of_cons (h : (m.output.asked prompt).2) (hlines : m.input.lines = bytes :: rest) :
    readInto settings line name prompt { m with log := m.log.note (.executing line) } =
      match Input.number bytes with
      | .ok x => bind settings line name (.number x)
          { m.asking line prompt with
            input := ⟨rest⟩
            log := (m.asking line prompt).log.note (.inputRead x) }
      | .error fault => .error ⟨fault, line⟩ { m.asking line prompt with input := ⟨rest⟩ } := by
  have hnumber := readNumber_asking line prompt m
  rw [if_pos h, readNumber_of_cons (m := m.asking line prompt) line hlines] at hnumber
  cases hread : Input.number bytes with
  | ok x =>
    rw [hread] at hnumber
    exact bind_ok hnumber
  | error fault =>
    rw [hread] at hnumber
    exact bind_error hnumber

/-- A line is taken if the prompt fits. -/
theorem lines_readNumber (line : Nat) (prompt : String) (m : Machine) :
    (left (readNumber line prompt m)).input.lines =
      if (m.output.asked prompt).2 then m.input.lines.tail else m.input.lines := by
  rw [readNumber_asked]
  split
  · cases hlines : m.input.lines with
    | nil =>
      rw [readNumber_of_empty (m := { m with output := (m.output.asked prompt).1 }) line hlines]
      exact hlines
    | cons bytes rest =>
      rw [readNumber_of_cons (m := { m with output := (m.output.asked prompt).1 }) line hlines]
      cases Input.number bytes <;> rfl
  · rfl

/-- A statement that comes to read a line takes it, and no other statement takes any. -/
theorem Stmt.lines_begin (settings : Settings) (s : Stmt) (m : Machine) :
    (left (s.begin settings m)).input.lines =
      if s.takesLine m.output then m.input.lines.tail else m.input.lines := by
  cases s with
  | input line name prompt =>
    let noted : Machine := { m with log := m.log.note (.executing line) }
    have hbegin : (left (Stmt.begin settings (.input line name prompt) m)).input =
        (left (readInto settings line name prompt noted)).input :=
      Keeps.left_bind (x := readInto settings line name prompt) (fun _ => .pure []) noted
    have hinto : (left (readInto settings line name prompt noted)).input =
        (left (readNumber line prompt noted)).input :=
      Keeps.left_bind (fun _ => (sources_bind settings line name _).input) noted
    rw [hbegin, hinto]
    exact lines_readNumber line prompt noted
  | _ => exact congrArg Input.lines (Stmt.keeps_input settings (by exact nofun) m)

end number

section steps

variable {settings : Settings} {start c c' : Config} {past : List Config}
variable {more : List (List UInt8)}

/-- A step takes a line if it comes to read one, and nothing else. -/
theorem Config.step_lines (h : c.step settings = some c') :
    c'.machine.input.lines =
      if c.takesLine then c.machine.input.lines.tail else c.machine.input.lines := by
  rcases step_sources h with ⟨m, s, rest, rfl, hbegin⟩ | ⟨hnone, hkept⟩
  · rw [hbegin]
    exact s.lines_begin settings m
  · have hinput : c'.machine.input = c.machine.input := congrArg Prod.fst hkept
    rw [hinput, takesLine, hnone]
    rfl

/-! ## A longer input -/

/-- The state with more lines after those of its input. -/
def Machine.followed (more : List (List UInt8)) (m : Machine) : Machine :=
  m.withChannels ⟨m.input.lines ++ more⟩ m.output

/-- The same place with more lines after those of the input. -/
def Config.followed (more : List (List UInt8)) (c : Config) : Config :=
  { c with machine := c.machine.followed more }

theorem Run.Secluded.followed {α : Type} {act : Run α} (h : Secluded act)
    (more : List (List UInt8)) : Mirrors (Machine.followed more) id act act :=
  h.mirrors (fun input => ⟨input.lines ++ more⟩) id

theorem Run.write_followed (line : Nat) (text : String) (more : List (List UInt8)) :
    Mirrors (Machine.followed more) id (write line text) (write line text) := by
  intro m
  have houtput : (m.followed more).output = m.output := rfl
  simp only [write, houtput]
  split <;> rfl

theorem Run.readNumber_followed_of_cons (line : Nat) {m : Machine} (h : m.input.lines ≠ [])
    (more : List (List UInt8)) : readNumber line "" (m.followed more) =
      mapResult (Machine.followed more) id (readNumber line "" m) := by
  obtain ⟨bytes, rest, hlines⟩ := List.exists_cons_of_ne_nil h
  have hmore : (m.followed more).input.lines = bytes :: (rest ++ more) := by
    show m.input.lines ++ more = _
    rw [hlines, List.cons_append]
  rw [readNumber_of_cons line hlines, readNumber_of_cons line hmore]
  cases Input.number bytes <;> rfl

/-- If there is a line where one is read, then it makes no difference what follows. -/
theorem Run.readNumber_followed (line : Nat) {prompt : String} {m : Machine}
    (h : (m.output.asked prompt).2 → m.input.lines ≠ []) (more : List (List UInt8)) :
    readNumber line prompt (m.followed more) =
      mapResult (Machine.followed more) id (readNumber line prompt m) := by
  have houtput : (m.followed more).output = m.output := rfl
  rw [readNumber_asked line prompt (m.followed more), readNumber_asked line prompt m, houtput]
  split
  · next hfits =>
    exact readNumber_followed_of_cons (m := { m with output := (m.output.asked prompt).1 }) line
      (h hfits) more
  · rfl

theorem Stmt.begin_followed (settings : Settings) {s : Stmt} {m : Machine}
    (h : s.takesLine m.output → m.input.lines ≠ []) (more : List (List UInt8)) :
    s.begin settings (m.followed more) =
      mapResult (Machine.followed more) id (s.begin settings m) := by
  cases s with
  | print line value =>
    have hprint : Mirrors (Machine.followed more) id (Run.print line value)
        (Run.print line value) :=
      ((secluded_evaluate line value).followed more).bind fun v =>
        (write_followed line _ more).bind fun _ => (secluded_note (.printed v)).followed more
    exact ((secluded_note _).followed more).bind (fun _ => hprint.bind fun _ => .pure _) m
  | input line name prompt =>
    let noted : Machine := { m with log := m.log.note (.executing line) }
    have hinto : readInto settings line name prompt (noted.followed more) =
        mapResult (Machine.followed more) id (readInto settings line name prompt noted) :=
      Mirrors.bind_at (readNumber_followed (m := noted) line h more) fun x =>
        (secluded_bind settings line name (.number x)).followed more
    have hdone : (do readInto settings line name prompt; pure ([] : List Task))
          (noted.followed more) =
        mapResult (Machine.followed more) id
          ((do readInto settings line name prompt; pure ([] : List Task)) noted) :=
      Mirrors.bind_at hinto fun _ => .pure []
    exact hdone
  | _ => exact (Stmt.secluded_begin settings (by exact nofun)).followed more m

theorem Config.step_followed (h : c.step settings = some c')
    (hfed : c.takesLine → c.machine.input.lines ≠ []) (more : List (List UInt8)) :
    (c.followed more).step settings = some (c'.followed more) := by
  have hafter (rest : List Task) (result : EStateM.Result Failure Machine (List Task)) :
      after rest (mapResult (Machine.followed more) id result) =
        (after rest result).followed more := by
    cases result <;> rfl
  obtain ⟨m, task, rest, ⟨rfl, rfl⟩ | ⟨failure, rfl, rfl⟩⟩ := step_eq_some h
  · rw [← hafter]
    refine (step_perform (m.followed more) task rest).trans (congrArg (some <| after rest ·) ?_)
    cases task with
    | statement s => exact s.begin_followed settings hfed more
    | _ => exact (Task.secluded_perform settings (by exact nofun)).followed more m
  · cases task <;> rfl

/-! ## Runs -/

/-- Where a line was to be read and there was none, the run has failed. -/
theorem Config.endOfInput_of_step (h : c.step settings = some c') (htakes : c.takesLine)
    (hempty : c.machine.input.lines = []) :
    ∃ line, c'.failure = some ⟨.endOfInput, line⟩ := by
  rcases step_sources h with ⟨m, s, rest, rfl, -⟩ | ⟨hnone, -⟩
  · cases s with
    | input line name prompt =>
      let noted : Machine := { m with log := m.log.note (.executing line) }
      have hinto : readInto settings line name prompt noted =
          .error ⟨.endOfInput, line⟩ (m.asking line prompt) := readInto_of_empty htakes hempty
      have hnote : note (.executing line) m = .ok () noted := rfl
      have hfails : Task.perform settings (.statement (.input line name prompt)) m =
          .error ⟨.endOfInput, line⟩ (m.asking line prompt) :=
        (bind_ok hnote).trans (bind_error hinto)
      rw [step_error hfails] at h
      cases h
      exact ⟨line, rfl⟩
    | _ => cases htakes
  · rw [takesLine, hnone] at htakes
    cases htakes

theorem Config.failure_step {failure : Failure} (h : c.step settings = some c')
    (hfailure : c.failure = some failure) : c'.failure = some failure := by
  obtain ⟨m, task, rest, ⟨rfl, rfl⟩ | ⟨failure, rfl, rfl⟩⟩ := step_eq_some h
  · cases hfailure
  · exact hfailure

/-- A run that has not failed for the end of the input had a line wherever one was read. -/
theorem Path.fed (h : Path settings start past c)
    (hend : ∀ line, c.failure ≠ some ⟨.endOfInput, line⟩) :
    ∀ place ∈ past, place.takesLine → place.machine.input.lines ≠ [] := by
  induction h with
  | begun => exact fun _ hplace => absurd hplace List.not_mem_nil
  | @step past c c' _ hstep ih =>
    intro place hplace htakes hempty
    rcases List.mem_cons.mp hplace with rfl | hplace
    · obtain ⟨line, hfailure⟩ := Config.endOfInput_of_step hstep htakes hempty
      exact hend line hfailure
    · exact ih (fun line hfailure => hend line (Config.failure_step hstep hfailure)) place hplace
        htakes hempty

/-- A run that had a line wherever one was read goes on in the same way if more lines follow. -/
theorem Path.followed (h : Path settings start past c)
    (hfed : ∀ place ∈ past, place.takesLine → place.machine.input.lines ≠ [])
    (more : List (List UInt8)) :
    Path settings (start.followed more) (past.map (Config.followed more)) (c.followed more) := by
  induction h with
  | begun => exact .begun
  | step _ hstep ih =>
    obtain ⟨hlast, hearlier⟩ := List.forall_mem_cons.mp hfed
    exact (ih hearlier).step (Config.step_followed hstep hlast more)

/-- The lines of the input are those that have been read, in order, and then those that are left. -/
theorem Path.lines_eq (h : Path settings start past c)
    (hfed : ∀ place ∈ past, place.takesLine → place.machine.input.lines ≠ []) :
    (past.reverse.filter Config.takesLine).map (·.machine.input.lines.head?) ++
        c.machine.input.lines.map some = start.machine.input.lines.map some := by
  induction h with
  | begun => rfl
  | @step past c c' _ hstep ih =>
    obtain ⟨hlast, hearlier⟩ := List.forall_mem_cons.mp hfed
    rw [← ih hearlier, Config.step_lines hstep, List.reverse_cons, List.filter_append,
      List.map_append, List.append_assoc]
    refine congrArg _ ?_
    by_cases htakes : c.takesLine
    · obtain ⟨bytes, rest, hlines⟩ := List.exists_cons_of_ne_nil (hlast htakes)
      rw [List.filter_cons_of_pos htakes, if_pos htakes, hlines]
      simp [hlines]
    · rw [List.filter_cons_of_neg htakes, if_neg htakes]
      rfl

/-- Statements that do not fail for the end of the input read its first lines, and go on in the same
way if more lines follow. -/
theorem statements_followed {m : Machine} (body : List Stmt)
    (hend : ∀ line, failure? (Run.statements settings body m) ≠ some ⟨.endOfInput, line⟩) :
    ∃ past c, Path settings ⟨m, [.block body], none⟩ past c ∧ c.Halted ∧
      c.result = Run.statements settings body m ∧
      (past.reverse.filter Config.takesLine).map (·.machine.input.lines.head?) ++
        c.machine.input.lines.map some = m.input.lines.map some ∧
      ∀ more, Run.statements settings body (m.followed more) =
        mapResult (Machine.followed more) id (Run.statements settings body m) := by
  have hperform : Performs settings [.block body] (Run.statements settings body) m :=
    statements_perform body
  obtain ⟨c, hreaches, hover, hresult⟩ := hperform.ends
  obtain ⟨past, hpath⟩ := Path.of_reaches hreaches
  have hfed := hpath.fed fun line hfailure => hend line <| by
    rw [← hresult, Config.result, hfailure]
    rfl
  refine ⟨past, c, hpath, hover, hresult, hpath.lines_eq hfed, fun more => ?_⟩
  have hrun : (Order.statements body).run settings (m.followed more) = (c.followed more).result :=
    Order.run_eq (hpath.followed hfed more).reaches hover
  refine hrun.trans ?_
  rw [← hresult, Config.result, Config.result]
  cases hfailure : c.failure <;> simp only [Config.followed, hfailure] <;> rfl

end steps

/-! ## Inputs of bytes -/

/-- Lines that are ended stay apart from what follows. -/
theorem Input.splitLines_append_of_ended {u : List UInt8} (h : u = [] ∨ u.getLast? = some 10)
    (v : List UInt8) : splitLines (u ++ v) = splitLines u ++ splitLines v := by
  induction u with
  | nil => rfl
  | cons b u ih =>
    have hlast : (b :: u).getLast? = some 10 := h.resolve_left (List.cons_ne_nil b u)
    cases u with
    | nil =>
      obtain rfl : b = 10 := Option.some.inj hlast
      rfl
    | cons c u =>
      rw [List.getLast?_cons_cons] at hlast
      rw [List.cons_append, splitLines, ih (.inr hlast), splitLines.eq_2 b (c :: u)]
      by_cases hb : b = 10
      · rw [if_pos hb, if_pos hb, List.cons_append]
      · rw [if_neg hb, if_neg hb]
        -- the byte belongs to the first line of the others
        cases hlines : splitLines (c :: u) with
        | nil =>
          have hflatten := flatten_splitLines (c :: u)
          rw [hlines] at hflatten
          cases hflatten
        | cons line rest => rfl

theorem Machine.followed_ofBytes {u : List UInt8} (h : u = [] ∨ u.getLast? = some 10)
    (v : List UInt8) (m : Machine) :
    Machine.followed (Input.splitLines v) { m with input := .ofBytes u } =
      { m with input := .ofBytes (u ++ v) } := by
  rw [Input.ofBytes.eq_def (u ++ v), Input.splitLines_append_of_ended h]
  rfl

/-- Where no line is left, what follows is all that is left. -/
theorem mapResult_followed {run : EStateM.Result Failure Machine Unit}
    (h : (left run).input.lines = []) (v : List UInt8) :
    mapResult (Machine.followed (Input.splitLines v)) id run =
      mapResult (fun m => { m with input := .ofBytes v }) id run := by
  have hstate {m : Machine} (hm : m.input.lines = []) :
      m.followed (Input.splitLines v) = { m with input := .ofBytes v } := by
    rw [Machine.followed, hm]
    rfl
  cases run with
  | ok a m => exact congrArg (EStateM.Result.ok a) (hstate h)
  | error failure m => exact congrArg (EStateM.Result.error failure) (hstate h)

/-- What is taken from the input. A statement that reads a number shows its prompt first. If the
prompt does not fit, the input is left alone; otherwise the next line is taken, and if it is not
text or not a number, nothing is written. No other step of a run takes a line. Let a list of
statements be run with the input `u`, which is empty or ends in a line feed, so that at the end
nothing is left of it and the run has not failed for the end of the input. Then the lines of `u` are
those that have been read at the places of the run which came to read one, in their order. And with
any `v` after `u` the run has the same result and leaves the same state, with the input `v`. -/
theorem input_takes_one_line (settings : Settings) :
    (∀ line name prompt (m : Machine),
      let run := Run.statement settings (.input line name prompt) m
      let shown := m.asking line prompt
      ((m.output.asked prompt).2 = false → run = .error ⟨.outputFull, line⟩ shown) ∧
      ((m.output.asked prompt).2 → m.input.lines = [] → run = .error ⟨.endOfInput, line⟩ shown) ∧
      ∀ bytes rest, (m.output.asked prompt).2 → m.input.lines = bytes :: rest →
        (∀ fault, Input.number bytes = .error fault →
          run = .error ⟨fault, line⟩ { shown with input := ⟨rest⟩ }) ∧
        ∀ x, Input.number bytes = .ok x → run = Run.bind settings line name (.number x)
          { shown with input := ⟨rest⟩, log := shown.log.note (.inputRead x) }) ∧
    (∀ c c', Config.step settings c = some c' → c'.machine.input.lines =
      if c.takesLine then c.machine.input.lines.tail else c.machine.input.lines) ∧
    ∀ (m : Machine) body u, u = [] ∨ u.getLast? = some 10 →
      let begin : Machine := { m with input := .ofBytes u }
      let run := Run.statements settings body begin
      (left run).input.lines = [] → (∀ line, failure? run ≠ some ⟨.endOfInput, line⟩) →
      (∃ past c, Path settings ⟨begin, [.block body], none⟩ past c ∧ c.Halted ∧ c.result = run ∧
        (past.reverse.filter Config.takesLine).map (·.machine.input.lines.head?) =
          (Input.splitLines u).map some) ∧
      ∀ v, Run.statements settings body { m with input := .ofBytes (u ++ v) } =
        mapResult (fun m' => { m' with input := .ofBytes v }) id run := by
  refine ⟨fun line name prompt m => ⟨readInto_of_full, readInto_of_empty, ?_⟩,
    fun c c' => Config.step_lines, ?_⟩
  · intro bytes rest hfits hlines
    refine ⟨fun fault hread => (readInto_of_cons hfits hlines).trans ?_,
      fun x hread => (readInto_of_cons hfits hlines).trans ?_⟩
    · rw [hread]
    · rw [hread]
  · intro m body u hu begin run hall hend
    obtain ⟨past, c, hpath, hover, hresult, hlines, hfollowed⟩ := statements_followed body hend
    have hleft : c.machine.input.lines = [] := by
      rwa [Config.machine_eq hresult]
    rw [hleft, List.map_nil, List.append_nil] at hlines
    refine ⟨⟨past, c, hpath, hover, hresult, hlines⟩, fun v => ?_⟩
    rw [← Machine.followed_ofBytes hu, hfollowed]
    exact mapResult_followed hall v

/-- A function reads one line, and a statement after the call reads the next one. Whatever follows
these two lines is left. -/
theorem input_takes_one_line_in_call :
    let m := Machine.initial {} 0 ⟨[]⟩ .unlimited .off
    let body : List Stmt :=
      [.define 1 "f" [] [.input 2 "x" "value"] "x", .call 3 "f" [], .input 4 "y" ""]
    let u : List UInt8 := [49, 10, 50, 10]
    ∀ v, ∃ m', Run.statements {} body { m with input := .ofBytes (u ++ v) } = .ok () m' ∧
      m'.input = .ofBytes v := by
  intro m body u v
  have hsuccess : failure? (Run.statements {} body { m with input := .ofBytes u }) = none := by
    decide +kernel
  have hall : (left (Run.statements {} body { m with input := .ofBytes u })).input.lines = [] := by
    decide +kernel
  have hend : ∀ line, failure? (Run.statements {} body { m with input := .ofBytes u }) ≠
      some ⟨.endOfInput, line⟩ := fun line => by
    rw [hsuccess]
    exact nofun
  obtain ⟨⟨⟩, after, hrun⟩ := failure?_eq_none.mp hsuccess
  have hlonger := ((input_takes_one_line {}).2.2 m body u (.inr rfl) hall hend).2 v
  rw [hrun] at hlonger
  exact ⟨_, hlonger, rfl⟩

end DivisionScript
