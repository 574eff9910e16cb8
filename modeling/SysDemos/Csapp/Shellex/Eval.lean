import SysDemos.Csapp.Shellex.Parseline

/-!
# SysDemos.Csapp.Shellex.Eval

What `eval` does with a command line.

A line whose first word is `&` and whose last word does not begin with `'&'`,
like `& foo`, is a builtin command, for which no process is created, and yet
`eval` goes on to wait for the process `pid`, a variable it has not set.  A `fork`
that fails is not noticed either: `eval` waits for, or reports, process `-1`.

* `eval_spec` — `eval` acts on the words of the line without its last character;
* `waits_for_own_job_iff` — it waits for the job it has started exactly if the first
  word is not `&` and `fork` does not fail.
-/

namespace SysDemos.Shellex

open CString Rio

/-- `eval` takes this line for a job in the background: `parseline` says so for blank lines too. -/
def inBackground (ws : List (List UInt8)) : Bool := ws = [] || background ws

/-- The strings in `argv`. -/
theorem argStrings_eq {mem : Mem} {argv : Argv} {fuel j : Nat} {args : List (List UInt8)}
    (hargs : ∀ k w, args[k]? = some w →
      ∃ arg, argv (j + k) = some arg ∧ w.length < maxline ∧ Str mem arg w)
    (hnull : argv (j + args.length) = none) (hfuel : args.length < fuel) :
    argStrings mem argv fuel j = some args := by
  induction args generalizing fuel j with
  | nil =>
      obtain ⟨fuel, rfl⟩ := Nat.exists_eq_succ_of_ne_zero (by omega : fuel ≠ 0)
      rw [argStrings, show argv j = none from hnull]
  | cons w args ih =>
      obtain ⟨fuel, rfl⟩ := Nat.exists_eq_succ_of_ne_zero (by omega : fuel ≠ 0)
      obtain ⟨arg, harg, hlen, hstr⟩ := hargs 0 w rfl
      have hrest : argStrings mem argv fuel (j + 1) = some args := by
        refine ih (fun k v hv => ?_) ?_ (by simpa using hfuel)
        · rw [Nat.add_assoc, Nat.add_comm 1 k]
          exact hargs (k + 1) v hv
        · rw [Nat.add_assoc, Nat.add_comm 1]
          exact hnull
      rw [argStrings, show argv j = some arg from harg]
      simp only
      rw [cstring_eq hstr hlen, hrest]
      rfl

theorem length_argsOf_le (ws : List (List UInt8)) : (argsOf ws).length ≤ ws.length := by
  unfold argsOf
  split
  · rw [List.length_dropLast]
    exact Nat.sub_le _ _
  · exact le_rfl

/-- **`eval`** on a line of at most 127 words. -/
theorem eval_spec (env : Env) {cmdline : List UInt8} (h0 : 0 ∉ cmdline)
    (hlen : cmdline.length < maxline)
    (hfew : (words space cmdline.dropLast).length < maxargs) :
    eval env cmdline = some (evalArgs env (argsOf (words space cmdline.dropLast))
      (inBackground (words space cmdline.dropLast))) := by
  obtain ⟨q, hq, hspec⟩ := parseline_spec env.argv (str_strcpy h0) hlen
  have hstrings : argStrings q.mem q.argv maxargs 0 =
      some (argsOf (words space cmdline.dropLast)) := by
    refine argStrings_eq (fun k w hw => ?_) ?_ ((length_argsOf_le _).trans_lt hfew)
    · obtain ⟨arg, harg, hpos, hlt, hstr⟩ := hspec.args k w hw
      exact ⟨arg, (Nat.zero_add k).symm ▸ harg, by omega, hstr⟩
    · rw [Nat.zero_add]
      exact hspec.null
  have hbg : decide (q.ret ≠ 0) = inBackground (words space cmdline.dropLast) := by
    rw [Bool.eq_iff_iff, decide_eq_true_iff, hspec.ret]
    simp [inBackground]
  rw [eval, hq]
  simp only
  rw [if_pos (by rw [hspec.argc]; exact hfew), hstrings, Option.map_some, hbg]

/-- With more words `argv` is overrun. -/
theorem eval_of_many (env : Env) {cmdline : List UInt8} (h0 : 0 ∉ cmdline)
    (hlen : cmdline.length < maxline)
    (hmany : maxargs ≤ (words space cmdline.dropLast).length) : eval env cmdline = none := by
  obtain ⟨q, hq, hspec⟩ := parseline_spec env.argv (str_strcpy h0) hlen
  rw [eval, hq]
  simp only
  rw [if_neg (by rw [hspec.argc]; omega)]

/-! ## waiting -/

/-- What `eval` can do with the words `args`. -/
inductive EvalEnd (env : Env) (args : List (List UInt8)) (bg : Bool) : Eval → Prop where
  | blank (hargs : args = []) : EvalEnd env args bg ⟨args, bg, [], .returned⟩
  | quits (hargs : args.head? = some quit) : EvalEnd env args bg ⟨args, bg, [], .exited⟩
  | builtin (hargs : args.head? = some [ampersand]) :
      EvalEnd env args bg ⟨args, bg, (evalWait env bg env.pid).1, (evalWait env bg env.pid).2⟩
  | child (arg : List UInt8) (ending : Ending) (hargs : args.head? = some arg) (hquit : arg ≠ quit)
      (hamp : arg ≠ [ampersand]) (hfork : env.fork = 0) (hending : ending ≠ .returned) :
      EvalEnd env args bg ⟨args, bg, [.fork env.fork], ending⟩
  | job (arg : List UInt8) (hargs : args.head? = some arg) (hquit : arg ≠ quit)
      (hamp : arg ≠ [ampersand]) (hfork : env.fork ≠ 0) :
      EvalEnd env args bg
        ⟨args, bg, .fork env.fork :: (evalWait env bg env.fork).1, (evalWait env bg env.fork).2⟩

theorem evalArgs_cases (env : Env) (args : List (List UInt8)) (bg : Bool) :
    EvalEnd env args bg (evalArgs env args bg) := by
  cases args with
  | nil => exact .blank rfl
  | cons arg args =>
      by_cases hquit : arg = quit
      · subst hquit
        exact .quits rfl
      · by_cases hamp : arg = [ampersand]
        · subst hamp
          exact .builtin rfl
        · have hbuiltin : builtinCommand arg = some false := by simp [builtinCommand, hquit, hamp]
          simp only [evalArgs, hbuiltin]
          split
          · next hfork =>
              refine .child arg _ rfl hquit hamp hfork ?_
              split <;> simp
          · next hfork => exact .job arg rfl hquit hamp hfork

/-- Every process that is waited for or reported is a child that this call has created. -/
def OwnJob (e : Eval) : Prop :=
  ∀ pid, .waitpid pid ∈ e.events ∨ .report pid ∈ e.events → 0 < pid ∧ .fork pid ∈ e.events

/-- The end of `eval` waits for `pid`, or reports it. -/
theorem mem_evalWait (env : Env) (bg : Bool) (pid : Int) :
    ∀ p, .waitpid p ∈ (evalWait env bg pid).1 ∨ .report p ∈ (evalWait env bg pid).1 ↔ p = pid := by
  intro p
  cases bg <;> simp [evalWait]

theorem fork_notMem_evalWait (env : Env) (bg : Bool) (pid p : Int) :
    .fork p ∉ (evalWait env bg pid).1 := by
  cases bg <;> simp [evalWait]

theorem ownJob_evalArgs_iff (env : Env) (args : List (List UInt8)) (bg : Bool) :
    OwnJob (evalArgs env args bg) ↔
      ∀ arg, args.head? = some arg → arg ≠ [ampersand] ∧ (arg ≠ quit → 0 ≤ env.fork) := by
  have hcases := evalArgs_cases env args bg
  generalize evalArgs env args bg = e at hcases ⊢
  cases hcases with
  | blank hargs => simp [OwnJob, hargs]
  | quits hargs => simp [OwnJob, hargs, quit]
  | builtin hargs =>
      -- `pid` is not that of a child, since none was created
      refine iff_of_false (fun hown => ?_) (by simp [hargs])
      have hwait := (mem_evalWait env bg env.pid env.pid).mpr rfl
      exact fork_notMem_evalWait env bg env.pid _ (hown env.pid hwait).2
  | child arg ending hargs hquit hamp hfork hending => simp [OwnJob, hargs, hfork, hamp]
  | job arg hargs hquit hamp hfork =>
      have hown : OwnJob ⟨args, bg, .fork env.fork :: (evalWait env bg env.fork).1,
          (evalWait env bg env.fork).2⟩ ↔ 0 < env.fork := by
        simp only [OwnJob, List.mem_cons, reduceCtorEq, false_or, mem_evalWait, forall_eq, true_or,
          and_true]
      rw [hown]
      simp only [hargs, Option.some.injEq, forall_eq', ne_eq, hamp, hquit, not_false_eq_true,
        true_and, forall_const]
      omega

/-- **When `eval` waits only for the job it has started**: for every command line of at most 127
words and all results of `fork` and `execve`, exactly if the first word that is kept is not `&`
and, unless it is `quit`, `fork` does not fail. -/
theorem waits_for_own_job_iff (env : Env) (cmdline : List UInt8) (h0 : 0 ∉ cmdline)
    (hlen : cmdline.length < maxline)
    (hfew : (words space cmdline.dropLast).length < maxargs) :
    ∃ e, eval env cmdline = some e ∧ (OwnJob e ↔
      ∀ arg, (argsOf (words space cmdline.dropLast)).head? = some arg →
        arg ≠ [ampersand] ∧ (arg ≠ quit → 0 ≤ env.fork)) :=
  ⟨_, eval_spec env h0 hlen hfew, ownJob_evalArgs_iff env _ _⟩

/-- An environment in which all calls succeed and `pid` happens to be `garbage`. -/
def calm (garbage : Int) : Env :=
  { buf := fun _ => 0, argv := fun _ => none, pid := garbage,
    fork := 100, execve := 0, waitpid := 100 }

/-- The line `"& a"`: no process is created, and `eval` waits for process 7. -/
theorem waits_for_unset_pid : ¬ ∀ env cmdline, 0 ∉ cmdline → cmdline.length < maxline →
    (words space cmdline.dropLast).length < maxargs →
      ∃ e, eval env cmdline = some e ∧ OwnJob e := by
  intro hall
  obtain ⟨e, he, hown⟩ := hall (calm 7) [38, 32, 97, 10] (by decide) (by decide) (by decide)
  have heval : eval (calm 7) [38, 32, 97, 10] =
      some ⟨[[38], [97]], false, [.waitpid 7], .returned⟩ := by decide +kernel
  obtain rfl := Option.some.inj (heval.symm.trans he)
  exact absurd (hown 7 (by decide)).2 (by decide)

/-- The line `"a &"`: the job is reported. -/
theorem waits_for_own_job_iff_background : ∃ e, eval (calm 7) [97, 32, 38, 10] = some e ∧
    OwnJob e := by
  obtain ⟨e, he, hiff⟩ := waits_for_own_job_iff (calm 7) [97, 32, 38, 10] (by decide) (by decide)
    (by decide)
  refine ⟨e, he, hiff.mpr fun arg harg => ?_⟩
  have hhead : (argsOf (words space [97, 32, 38, 10].dropLast)).head? = some [97] := by decide
  obtain rfl : [97] = arg := Option.some.inj (hhead.symm.trans harg)
  decide

end SysDemos.Shellex
