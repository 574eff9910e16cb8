import SysDemos.Csapp.Shellex.Eval

/-!
# SysDemos.Csapp.Shellex.Input

What the loop of `main` makes of standard input.

`main` passes on what `fgets` has stored, unless `fgets` has met the end of the
stream.  So a last line without a newline is dropped; and of a line that does not
fit into the buffer every piece is a command of its own, the last character of
which `parseline` overwrites.  And what the processes that are started do to standard
input decides what is read next.

* `one_command_per_line_iff` — which streams are read as they should be.
-/

namespace SysDemos.Shellex

open CString Rio

/-! ## fgets -/

/-- A line that fits is read up to its newline. -/
theorem fgetsLoop_line {k : Nat} {body rest : List UInt8} (hbody : newline ∉ body)
    (hk : body.length < k) :
    fgetsLoop k (body ++ newline :: rest) = (body ++ [newline], rest, false) := by
  induction body generalizing k with
  | nil =>
      obtain ⟨k, rfl⟩ := Nat.exists_eq_succ_of_ne_zero (by omega : k ≠ 0)
      simp [fgetsLoop]
  | cons c body ih =>
      obtain ⟨k, rfl⟩ := Nat.exists_eq_succ_of_ne_zero (by omega : k ≠ 0)
      rw [List.mem_cons, not_or] at hbody
      rw [List.cons_append, fgetsLoop, if_neg fun heq => hbody.1 heq.symm,
        ih hbody.2 (by simpa using hk)]
      rfl

/-- Of a line that does not fit, as much is read as fits. -/
theorem fgetsLoop_full {k : Nat} {l rest : List UInt8} (hl : newline ∉ l) (hk : l.length = k) :
    fgetsLoop k (l ++ rest) = (l, rest, false) := by
  induction l generalizing k with
  | nil => rw [← hk]; rfl
  | cons c l ih =>
      rw [List.mem_cons, not_or] at hl
      rw [← hk, List.length_cons, List.cons_append, fgetsLoop, if_neg fun heq => hl.1 heq.symm,
        ih hl.2 rfl]

/-- The stream ends before a newline. -/
theorem fgetsLoop_eof {k : Nat} {l : List UInt8} (hl : newline ∉ l) (hk : l.length < k) :
    fgetsLoop k l = (l, [], true) := by
  induction l generalizing k with
  | nil =>
      obtain ⟨k, rfl⟩ := Nat.exists_eq_succ_of_ne_zero (by omega : k ≠ 0)
      rfl
  | cons c l ih =>
      obtain ⟨k, rfl⟩ := Nat.exists_eq_succ_of_ne_zero (by omega : k ≠ 0)
      rw [List.mem_cons, not_or] at hl
      rw [fgetsLoop, if_neg fun heq => hl.1 heq.symm, ih hl.2 (by simpa using hk)]

/-! ## lines and commands -/

/-- The lines of a stream, without their newlines; the last one may have none. -/
def linesOf : List UInt8 → List (List UInt8)
  | [] => []
  | c :: stream =>
    if c = newline then [] :: linesOf stream
    else
      match linesOf stream with
      | [] => [[c]]
      | l :: ls => (c :: l) :: ls

theorem linesOf_line {body : List UInt8} (hbody : newline ∉ body) (rest : List UInt8) :
    linesOf (body ++ newline :: rest) = body :: linesOf rest := by
  induction body with
  | nil => simp [linesOf]
  | cons c body ih =>
      rw [List.mem_cons, not_or] at hbody
      rw [List.cons_append, linesOf, if_neg fun heq => hbody.1 heq.symm, ih hbody.2]

theorem linesOf_open {l : List UInt8} (hne : l ≠ []) (hl : newline ∉ l) : linesOf l = [l] := by
  induction l with
  | nil => contradiction
  | cons c l ih =>
      rw [List.mem_cons, not_or] at hl
      rw [linesOf, if_neg fun heq => hl.1 heq.symm]
      cases l with
      | nil => rfl
      | cons b l => rw [ih (List.cons_ne_nil _ _) hl.2]

theorem linesOf_eq_nil_iff {stream : List UInt8} : linesOf stream = [] ↔ stream = [] := by
  cases stream with
  | nil => simp [linesOf]
  | cons c stream =>
      rw [linesOf]
      split
      · simp
      · split <;> simp

/-- What follows the first `j` lines of a stream. -/
def dropLines : Nat → List UInt8 → List UInt8
  | 0, stream => stream
  | _ + 1, [] => []
  | j + 1, c :: stream => if c = newline then dropLines j stream else dropLines (j + 1) stream

theorem dropLines_line {body : List UInt8} (hbody : newline ∉ body) (j : Nat)
    (rest : List UInt8) : dropLines (j + 1) (body ++ newline :: rest) = dropLines j rest := by
  induction body with
  | nil => simp [dropLines]
  | cons c body ih =>
      rw [List.mem_cons, not_or] at hbody
      rw [List.cons_append, dropLines, if_neg fun heq => hbody.1 heq.symm, ih hbody.2]

/-- The command that a line is: its words, and whether it runs in the background. -/
def commandOf (l : List UInt8) : List (List UInt8) × Bool :=
  (argsOf (words space l), inBackground (words space l))

/-- The words that a call of `eval` has found. -/
def Eval.command (e : Eval) : List (List UInt8) × Bool := (e.args, e.bg)

theorem command_evalArgs (env : Env) (args : List (List UInt8)) (bg : Bool) :
    (evalArgs env args bg).command = (args, bg) := by
  have hcases := evalArgs_cases env args bg
  generalize evalArgs env args bg = e at hcases ⊢
  cases hcases <;> rfl

/-- A command after which `main` does not go on: `quit`; one in whose child process this is; one
for which it waits in vain. -/
def Stops (env : Env) (ws : List (List UInt8)) : Prop :=
  ∃ arg, (argsOf ws).head? = some arg ∧
    (arg = quit ∨ (arg ≠ [ampersand] ∧ env.fork = 0) ∨ (background ws = false ∧ env.waitpid < 0))

theorem ending_evalWait (env : Env) (bg : Bool) (pid : Int) :
    (evalWait env bg pid).2 = .returned ↔ ¬ (bg = false ∧ env.waitpid < 0) := by
  cases bg <;> simp [evalWait]

theorem inBackground_of_head? {ws : List (List UInt8)} {arg : List UInt8}
    (h : (argsOf ws).head? = some arg) : inBackground ws = background ws := by
  have hne : ws ≠ [] := by
    rintro rfl
    simp [argsOf, background] at h
  simp [inBackground, hne]

theorem ending_eq_returned_iff (env : Env) (ws : List (List UInt8)) :
    (evalArgs env (argsOf ws) (inBackground ws)).ending = .returned ↔ ¬ Stops env ws := by
  unfold Stops
  have hcases := evalArgs_cases env (argsOf ws) (inBackground ws)
  generalize evalArgs env (argsOf ws) (inBackground ws) = e at hcases ⊢
  cases hcases with
  | blank hargs => simp [hargs]
  | quits hargs => simp [hargs]
  | builtin hargs =>
      have hne : ([ampersand] : List UInt8) ≠ quit := by decide
      simp [hargs, ending_evalWait, inBackground_of_head? hargs, hne]
  | child arg ending hargs hquit hamp hfork hending => simp [hargs, hending, hamp, hfork]
  | job arg hargs hquit hamp hfork =>
      simp [hargs, ending_evalWait, inBackground_of_head? hargs, hquit, hfork]

/-! ## the loop -/

/-- A stream that does not end in the middle of a line. -/
def Terminated (stream : List UInt8) : Prop := stream = [] ∨ stream.getLast? = some newline

theorem terminated_line (body rest : List UInt8) :
    Terminated (body ++ newline :: rest) ↔ Terminated rest := by
  unfold Terminated
  cases rest with
  | nil => simp
  | cons c rest => simp [List.getLast?_cons_cons]

/-- The iterations of the loop of `main` are the lines of the stream: each produces the command of
its line, and what `parseline` does not overwrite of a command line is the line. -/
def PerLine (its : List (List UInt8 × Option Eval)) (lines : List (List UInt8)) : Prop :=
  its.map (fun it => it.2.map (·.command)) = lines.map (fun l => some (commandOf l)) ∧
    its.map (fun it => it.1.dropLast) = lines

theorem perLine_cons {it : List UInt8 × Option Eval} {its : List (List UInt8 × Option Eval)}
    {l : List UInt8} {ls : List (List UInt8)} :
    PerLine (it :: its) (l :: ls) ↔
      (it.2.map (·.command) = some (commandOf l) ∧ it.1.dropLast = l) ∧ PerLine its ls := by
  simp only [PerLine, List.map_cons, List.cons.injEq]
  tauto

theorem perLine_nil {ls : List (List UInt8)} : PerLine [] ls ↔ ls = [] := by
  constructor
  · exact fun h => h.2.symm
  · rintro rfl
    exact ⟨rfl, rfl⟩

/-- A line that fits: into the buffer, into `argv`, and, if it is not the last one, it does not
stop the shell. -/
def Fits (env : Env) (l : List UInt8) (last : Bool) : Prop :=
  l.length + 1 < maxline ∧ (words space l).length < maxargs ∧
    (last = false → ¬ Stops env (words space l))

/-- All lines from the `k`-th call of `eval` on fit. -/
def AllFit (env : Nat → Env) : Nat → List (List UInt8) → Prop
  | _, [] => True
  | k, l :: ls => Fits (env k) l (ls = []) ∧ AllFit env (k + 1) ls

/-- A first line of the stream that fits into the buffer. -/
theorem perLine_line {env : Nat → Env} {left : Nat → List UInt8 → List UInt8} {fuel k : Nat}
    {body rest : List UInt8} (h0 : 0 ∉ body) (hbody : newline ∉ body)
    (hlen : body.length + 1 < maxline) :
    PerLine (mainLoop env left (fuel + 1) k (body ++ newline :: rest)) (body :: linesOf rest) ↔
      (words space body).length < maxargs ∧
        ((Stops (env k) (words space body) ∧ linesOf rest = []) ∨
          (¬ Stops (env k) (words space body) ∧
            PerLine (mainLoop env left fuel (k + 1) (left k rest)) (linesOf rest))) := by
  have hfgets : fgets maxline (body ++ newline :: rest) = (body ++ [newline], rest, false) :=
    fgetsLoop_line hbody (by omega)
  have h0' : 0 ∉ body ++ [newline] := by
    rw [List.mem_append, not_or]
    exact ⟨h0, by decide⟩
  have hlen' : (body ++ [newline]).length < maxline := by simpa using hlen
  have hdrop : (body ++ [newline]).dropLast = body := List.dropLast_concat
  simp only [mainLoop, hfgets]
  rw [if_neg (by decide), perLine_cons]
  simp only [hdrop, and_true]
  by_cases hfew : (words space body).length < maxargs
  · have heval := eval_spec (env k) h0' hlen' (hdrop.symm ▸ hfew)
    rw [hdrop] at heval
    have hend := ending_eq_returned_iff (env k) (words space body)
    simp only [heval, Option.map_some, command_evalArgs]
    simp only [commandOf, hfew, true_and]
    by_cases hstops : Stops (env k) (words space body)
    · rw [if_neg fun hret => hend.mp hret hstops, perLine_nil]
      simp [hstops]
    · rw [if_pos (hend.mpr hstops)]
      simp [hstops]
  · have heval := eval_of_many (env k) h0' hlen' (hdrop.symm ▸ not_lt.mp hfew)
    simp [heval, hfew]

/-- A line that does not fit into the buffer is not read as one. -/
theorem not_perLine_long {env : Nat → Env} {left : Nat → List UInt8 → List UInt8} {fuel k : Nat}
    {l rest : List UInt8} {ls : List (List UInt8)} (hl : newline ∉ l)
    (hlen : maxline ≤ l.length + 1) :
    ¬ PerLine (mainLoop env left (fuel + 1) k (l ++ rest)) (l :: ls) := by
  have hfgets : fgets maxline (l ++ rest) =
      (l.take (maxline - 1), l.drop (maxline - 1) ++ rest, false) := by
    rw [fgets, ← fgetsLoop_full (fun hmem => hl (List.mem_of_mem_take hmem))
      (List.length_take_of_le (by omega) : (l.take (maxline - 1)).length = maxline - 1)]
    rw [← List.append_assoc, List.take_append_drop]
  simp only [mainLoop, hfgets]
  rw [if_neg (by decide), perLine_cons]
  rintro ⟨⟨-, hpiece⟩, -⟩
  have hcut := congrArg List.length hpiece
  simp only [List.length_dropLast, List.length_take] at hcut
  unfold maxline at hcut hlen
  omega

/-- What is left of the stream after the `k`-th line and those that follow is left as it is. -/
def Untouched (left : Nat → List UInt8 → List UInt8) (k : Nat) (stream : List UInt8) : Prop :=
  ∀ j, left (k + j) (dropLines (j + 1) stream) = dropLines (j + 1) stream

theorem Untouched.line {left : Nat → List UInt8 → List UInt8} {k : Nat} {body rest : List UInt8}
    (h : Untouched left k (body ++ newline :: rest)) (hbody : newline ∉ body) :
    left k rest = rest ∧ Untouched left (k + 1) rest := by
  have hrest (j : Nat) := h j
  simp only [dropLines_line hbody] at hrest
  refine ⟨by simpa [dropLines] using hrest 0, fun j => ?_⟩
  rw [Nat.add_assoc, Nat.add_comm 1]
  exact hrest (j + 1)

/-- **The loop of `main`**, from any point of the stream. -/
theorem perLine_mainLoop_iff {env : Nat → Env} {left : Nat → List UInt8 → List UInt8}
    {fuel k : Nat} {stream : List UInt8} (h0 : 0 ∉ stream) (hleft : Untouched left k stream)
    (hfuel : stream.length < fuel) :
    PerLine (mainLoop env left fuel k stream) (linesOf stream) ↔
      Terminated stream ∧ AllFit env k (linesOf stream) := by
  induction fuel generalizing k stream with
  | zero => omega
  | succ fuel ih =>
      by_cases hnl : newline ∈ stream
      · obtain ⟨body, rest, rfl, hbody⟩ := List.eq_append_cons_of_mem hnl
        rw [List.mem_append, List.mem_cons, not_or, not_or] at h0
        simp only [List.length_append, List.length_cons] at hfuel
        rw [linesOf_line hbody, terminated_line]
        obtain ⟨hsame, hleft⟩ := hleft.line hbody
        by_cases hlen : body.length + 1 < maxline
        · rw [perLine_line h0.1 hbody hlen, hsame, ih h0.2.2 hleft (by omega)]
          simp only [AllFit, Fits, hlen, true_and, decide_eq_false_iff_not]
          by_cases hrest : linesOf rest = []
          · have hterm : Terminated rest := .inl (linesOf_eq_nil_iff.mp hrest)
            have hall : AllFit env (k + 1) (linesOf rest) := by rw [hrest]; trivial
            tauto
          · tauto
        · refine iff_of_false (not_perLine_long hbody (by omega)) ?_
          rintro ⟨-, hfits, -⟩
          exact hlen hfits.1
      · by_cases hnil : stream = []
        · subst hnil
          have hfgets : fgets maxline [] = ([], [], true) :=
            fgetsLoop_eof (by simp) (by decide)
          simp [mainLoop, hfgets, linesOf, perLine_nil, Terminated, AllFit]
        · -- the last line has no newline
          rw [linesOf_open hnil hnl]
          refine iff_of_false ?_ fun hfits => ?_
          · by_cases hlen : stream.length + 1 < maxline
            · have hfgets : fgets maxline stream = (stream, [], true) :=
                fgetsLoop_eof hnl (by omega)
              simp [mainLoop, hfgets, perLine_nil]
            · have hlong : ¬ PerLine (mainLoop env left (fuel + 1) k (stream ++ [])) [stream] :=
                not_perLine_long hnl (by omega)
              rwa [List.append_nil] at hlong
          · exact hnl (List.mem_of_getLast? (hfits.1.resolve_left hnil))

/-- **When one typed line is one command**: for every stream that the processes which are started
leave alone, and all results of the system calls, exactly if the stream ends with a newline, every
line with its newline has at most `MAXLINE - 1` characters and at most 127 words, and no command
before the last one stops the shell. -/
theorem one_command_per_line_iff (env : Nat → Env) (left : Nat → List UInt8 → List UInt8)
    (fuel : Nat) (stream : List UInt8) (h0 : 0 ∉ stream) (hleft : Untouched left 0 stream)
    (hfuel : stream.length < fuel) :
    PerLine (main env left fuel stream) (linesOf stream) ↔
      Terminated stream ∧ AllFit env 0 (linesOf stream) :=
  perLine_mainLoop_iff h0 hleft hfuel

/-- The programs `"a"` and `"b"` cannot be executed: the child of the first line sets the offset of
the file back, and the second line is read twice. -/
example : (main (fun _ => calm 7) (fun k rest => if k = 0 then rest ++ rest else rest) 5
    [97, 10, 98, 10]).map (·.1) = [[97, 10], [98, 10], [98, 10]] := by decide +kernel

/-- The command `"ls"` without a newline at the end of the stream is not run. -/
theorem last_line_dropped : ¬ ∀ env left fuel stream, 0 ∉ stream → Untouched left 0 stream →
    stream.length < fuel → PerLine (main env left fuel stream) (linesOf stream) := by
  intro hall
  have hmain : main (fun _ => calm 7) (fun _ rest => rest) 3 [108, 115] = [] := by decide +kernel
  have hper := hall (fun _ => calm 7) (fun _ rest => rest) 3 [108, 115] (by decide)
    (fun _ => rfl) (by decide)
  rw [hmain, perLine_nil] at hper
  exact absurd hper (by decide)

/-- With the newline it is. -/
theorem one_command_per_line_iff_newline :
    PerLine (main (fun _ => calm 7) (fun _ rest => rest) 4 [108, 115, 10]) [[108, 115]] := by
  refine (one_command_per_line_iff (fun _ => calm 7) (fun _ rest => rest) 4 [108, 115, 10]
    (by decide) (fun _ => rfl) (by decide)).mpr
    ⟨.inr rfl, ⟨by decide, by decide, fun h => ?_⟩, trivial⟩
  exact absurd h (by decide)

end SysDemos.Shellex
