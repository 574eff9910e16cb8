import SysDemos.Csapp.Shellex

/-!
# SysDemos.Csapp.Shellex.Parseline

What `parseline` makes of a command line.

The last character of the line is overwritten with a space, whatever it is, so
that every word is followed by one.  The loop then cuts one word after the other:
the text behind the cursor begins with a word and ends with a space
(`parseLoop_spec`).

* `parseline_spec` — what `parseline` leaves in both arrays, for every string;
* `parseline_words` — the words of a line;
* `argv_in_bounds_iff` — `argv` is overrun exactly by a line of more than 127 words.
-/

namespace SysDemos.Shellex

open CString Rio

/-! ## words and jobs -/

/-- The last word begins with `'&'`. -/
def background (ws : List (List UInt8)) : Bool :=
  ws.getLast?.any fun w => w.head? = some ampersand

/-- The words without a last one that begins with `'&'`. -/
def argsOf (ws : List (List UInt8)) : List (List UInt8) :=
  if background ws then ws.dropLast else ws

/-- The text that is split into words: the last character is overwritten. -/
def splitText (line : List UInt8) : List UInt8 :=
  if line = [] then [] else line.dropLast ++ [space]

theorem splitText_concat (body : List UInt8) (c : UInt8) :
    splitText (body ++ [c]) = body ++ [space] := by
  simp [splitText]

theorem length_splitText (line : List UInt8) : (splitText line).length = line.length := by
  rcases List.eq_nil_or_concat' line with rfl | ⟨body, c, rfl⟩
  · rfl
  · simp [splitText]

theorem words_splitText (line : List UInt8) :
    words space (splitText line) = words space line.dropLast := by
  rcases List.eq_nil_or_concat' line with rfl | ⟨body, c, rfl⟩
  · rfl
  · rw [splitText_concat, words_append_cons, words_nil, List.append_nil, List.dropLast_concat]

/-- Text with a space at its end, or none. -/
def SpaceLast (t : List UInt8) : Prop := t = [] ∨ t.getLast? = some space

theorem spaceLast_splitText (line : List UInt8) : SpaceLast (splitText line) := by
  rcases List.eq_nil_or_concat' line with rfl | ⟨body, c, rfl⟩
  · exact .inl rfl
  · rw [splitText_concat]
    exact .inr List.getLast?_concat

theorem SpaceLast.of_append {t t' : List UInt8} (h : SpaceLast (t ++ t')) : SpaceLast t' := by
  by_cases hnil : t' = []
  · exact .inl hnil
  · have hlast := h.resolve_left fun happ => hnil (List.append_eq_nil_iff.mp happ).2
    rw [List.getLast?_append_of_ne_nil _ hnil] at hlast
    exact .inr hlast

/-! ## the loops -/

theorem skipSpaces_eq {mem : Mem} {p : Int} {n k : Nat} {t : List UInt8}
    (h : Str mem p (List.replicate n space ++ t)) (ht : t.head? ≠ some space) (hk : n < k) :
    skipSpaces mem k p = some (p + n) := by
  induction n generalizing p k with
  | zero =>
      obtain ⟨k, rfl⟩ := Nat.exists_eq_succ_of_ne_zero (by omega : k ≠ 0)
      have hstop : ¬ (mem p ≠ 0 ∧ mem p = space) := by
        rintro ⟨hne, hsp⟩
        cases t with
        | nil => exact hne (by simpa using h.2.1)
        | cons c t => exact ht (by rw [List.head?_cons, ← hsp, h.uncons.1])
      rw [skipSpaces, if_neg hstop]
      simp
  | succ n ih =>
      obtain ⟨k, rfl⟩ := Nat.exists_eq_succ_of_ne_zero (by omega : k ≠ 0)
      obtain ⟨hsp, -, hs⟩ := h.uncons
      rw [skipSpaces, if_pos ⟨by rw [hsp]; decide, hsp⟩, ih hs (by omega)]
      congr 1
      push_cast
      ring

/-- What the loop makes of the text `t` at `p`: each of its words has an entry of `argv` and is
a string in the buffer, and nothing else is written. -/
structure Built (s s' : Parse) (p : Int) (t : List UInt8) : Prop where
  argc : s'.argc = s.argc + (words space t).length
  args : ∀ k w, (words space t)[k]? = some w → ∃ arg, s'.argv (s.argc + k) = some arg ∧
    p ≤ arg ∧ arg + w.length < p + t.length ∧ Str s'.mem arg w
  argv : ∀ j, j < s.argc ∨ s.argc + (words space t).length ≤ j → s'.argv j = s.argv j
  mem : ∀ a, a < p ∨ p + t.length ≤ a → s'.mem a = s.mem a

theorem built_nil (s : Parse) (p : Int) : Built s s p [] where
  argc := by simp [words_nil]
  args k w h := by simp [words_nil] at h
  argv _ _ := rfl
  mem _ _ := rfl

/-- The word at `p` is entered into `argv` and cut off at `delim`. -/
def Parse.cut (s : Parse) (p delim : Int) : Parse :=
  { mem := Function.update s.mem delim 0
    argv := Function.update s.argv s.argc (some p)
    argc := s.argc + 1 }

@[simp] theorem Parse.cut_argc (s : Parse) (p delim : Int) :
    (s.cut p delim).argc = s.argc + 1 := rfl

/-- Text that begins with a word and has a space behind it. -/
theorem exists_word {t : List UInt8} (hhead : t.head? ≠ some space) (hmem : space ∈ t) :
    ∃ w n t', t = w ++ space :: (List.replicate n space ++ t') ∧ w ≠ [] ∧ space ∉ w ∧
      t'.head? ≠ some space := by
  obtain ⟨w, t₁, rfl, hw⟩ := List.eq_append_cons_of_mem hmem
  obtain ⟨n, t', rfl, ht'⟩ := exists_replicate_append space t₁
  refine ⟨w, n, t', rfl, ?_, hw, ht'⟩
  rintro rfl
  exact hhead rfl

theorem length_word (w t : List UInt8) (n : Nat) :
    (w ++ space :: (List.replicate n space ++ t)).length = w.length + 1 + n + t.length := by
  simp only [List.length_append, List.length_cons, List.length_replicate]
  omega

/-- One word: the cursor moves behind the spaces that follow it, and the word is cut off. -/
theorem Built.cons {s s' : Parse} {p : Int} {w t : List UInt8} {n : Nat} (hne : w ≠ [])
    (hw : space ∉ w) (hstr : Str s.mem p (w ++ space :: (List.replicate n space ++ t)))
    (h : Built (s.cut p (p + w.length)) s' (p + w.length + 1 + n) t) :
    Built s s' p (w ++ space :: (List.replicate n space ++ t)) := by
  have hwords : words space (w ++ space :: (List.replicate n space ++ t)) = w :: words space t := by
    rw [words_append_cons, words_of_not_mem hne hw, words_replicate_append, List.singleton_append]
  have hlen := length_word w t n
  refine ⟨?_, fun k v hv => ?_, fun j hj => ?_, fun a ha => ?_⟩
  · rw [h.argc, hwords, List.length_cons, Parse.cut_argc]
    omega
  · rw [hwords] at hv
    rw [hlen]
    cases k with
    | zero =>
        obtain rfl : w = v := by simpa using hv
        refine ⟨p, ?_, le_rfl, by push_cast; omega, hstr.cut.congr fun a _ hle => ?_⟩
        · rw [Nat.add_zero, h.argv _ (.inl (Nat.lt_succ_self _))]
          exact Function.update_self ..
        · exact h.mem a (.inl (by omega))
    | succ k =>
        obtain ⟨arg, harg, hle, hlt, hv⟩ := h.args k v (by simpa using hv)
        refine ⟨arg, ?_, by omega, by push_cast; omega, hv⟩
        rw [← harg, Parse.cut_argc]
        congr 1
        omega
  · rw [hwords, List.length_cons] at hj
    rw [h.argv j (by rw [Parse.cut_argc]; omega)]
    exact Function.update_of_ne (by omega) ..
  · rw [hlen] at ha
    rw [h.mem a (by push_cast at ha; omega)]
    exact Function.update_of_ne (by push_cast at ha; omega) ..

/-- **The loop of `parseline`** on text that begins with a word, if it has one, and ends with a
space. -/
theorem parseLoop_spec {size fuel : Nat} {s : Parse} {p : Int} {t : List UInt8}
    (hstr : Str s.mem p t) (hhead : t.head? ≠ some space)
    (hlast : SpaceLast t) (hsize : t.length < size) (hfuel : t.length < fuel) :
    ∃ s', parseLoop size fuel s p = some s' ∧ Built s s' p t := by
  induction fuel generalizing s p t with
  | zero => omega
  | succ fuel ih =>
      by_cases hnil : t = []
      · subst hnil
        rw [parseLoop, strchr_eq_none hstr (by simp) (by decide) hsize]
        exact ⟨s, rfl, built_nil s p⟩
      · have hspace : space ∈ t := List.mem_of_getLast? (hlast.resolve_left hnil)
        obtain ⟨w, n, t', rfl, hne, hw, ht'⟩ := exists_word hhead hspace
        have hlen := length_word w t' n
        -- behind the NUL that cuts the word the text is as before
        have hrest : Str (Function.update s.mem (p + w.length) 0) (p + w.length + 1)
            (List.replicate n space ++ t') := by
          refine (Str.drop (s := [space]) hstr.drop).congr fun a ha _ => ?_
          exact Function.update_of_ne (by simp at ha; omega) ..
        have hlast' : SpaceLast t' := by
          rw [← List.cons_append] at hlast
          exact hlast.of_append.of_append
        have hcut : Str (s.cut p (p + w.length)).mem (p + w.length + 1 + n) t' := by
          simpa [Parse.cut] using hrest.drop
        obtain ⟨s', hs', hbuilt⟩ := ih hcut ht' hlast' (by omega) (by omega)
        refine ⟨s', ?_, Built.cons hne hw hstr hbuilt⟩
        rw [parseLoop, strchr_eq_some hstr hw (by omega)]
        simp only
        rw [skipSpaces_eq hrest ht' (by omega)]
        exact hs'

/-! ## parseline -/

/-- The end of `parseline`, after a loop that has found the words `ws`. -/
structure Ended (s : Parse) (ws : List (List UInt8)) (q : Parsed) : Prop where
  mem : q.mem = s.mem
  argc : q.argc = ws.length
  ret : q.ret ≠ 0 ↔ ws = [] ∨ background ws = true
  top : q.argv ws.length = none
  null : q.argv (argsOf ws).length = none
  below : ∀ k < (argsOf ws).length, q.argv k = s.argv k
  above : ∀ k, ws.length < k → q.argv k = s.argv k

theorem parseEnd_spec {s : Parse} {ws : List (List UInt8)} (hargc : s.argc = ws.length)
    (hlast : ∀ w, ws.getLast? = some w →
      ∃ arg, s.argv (ws.length - 1) = some arg ∧ w.head? = some (s.mem arg)) :
    ∃ q, parseEnd s = some q ∧ Ended s ws q := by
  rcases List.eq_nil_or_concat' ws with rfl | ⟨init, w, rfl⟩
  · have hend : parseEnd s = some { s with argv := Function.update s.argv s.argc none, ret := 1 } :=
      if_pos hargc
    exact ⟨_, hend, {
      mem := rfl
      argc := hargc
      ret := by simp
      top := by simp [hargc]
      null := by simp [argsOf, background, hargc]
      below := by simp [argsOf, background]
      above := fun k hk => Function.update_of_ne (by rw [hargc]; exact Nat.ne_of_gt hk) .. }⟩
  · rw [List.length_append, List.length_singleton] at hargc hlast
    obtain ⟨arg, harg, hhead⟩ := hlast w List.getLast?_concat
    rw [Nat.add_sub_cancel] at harg
    have hbg : background (init ++ [w]) = decide (s.mem arg = ampersand) := by
      simp [background, hhead]
    -- `argv[argc] = NULL`
    have hother : ∀ k ≠ init.length + 1, Function.update s.argv s.argc none k = s.argv k :=
      fun k hk => Function.update_of_ne (by rw [hargc]; exact hk) ..
    have hread : Function.update s.argv s.argc none (s.argc - 1) = some arg := by
      rw [hargc, Nat.add_sub_cancel, ← hargc, hother _ (by omega), harg]
    by_cases hamp : s.mem arg = ampersand
    · have hargs : argsOf (init ++ [w]) = init := by
        rw [argsOf, hbg, if_pos (decide_eq_true hamp), List.dropLast_concat]
      have hend : parseEnd s = some
          { s with
            argv := Function.update (Function.update s.argv s.argc none) (s.argc - 1) none
            ret := 1 } := by
        rw [parseEnd, if_neg (by omega), hread]
        exact if_pos hamp
      exact ⟨_, hend, {
        mem := rfl
        argc := by simp [hargc]
        ret := by simp [hbg, hamp]
        top := by simp [hargc]
        null := by simp [hargs, hargc]
        below := fun k hk => by
          rw [hargs] at hk
          exact (Function.update_of_ne (by omega) ..).trans (hother k (by omega))
        above := fun k hk => by
          rw [List.length_append, List.length_singleton] at hk
          exact (Function.update_of_ne (by omega) ..).trans (hother k (by omega)) }⟩
    · have hargs : argsOf (init ++ [w]) = init ++ [w] := by
        rw [argsOf, hbg, if_neg (by simpa using hamp)]
      have hend : parseEnd s =
          some { s with argv := Function.update s.argv s.argc none, ret := 0 } := by
        rw [parseEnd, if_neg (by omega), hread]
        exact if_neg hamp
      exact ⟨_, hend, {
        mem := rfl
        argc := by simp [hargc]
        ret := by simp [hbg, hamp]
        top := by simp [hargc]
        null := by simp [hargs, hargc]
        below := fun k hk => by
          rw [hargs, List.length_append, List.length_singleton] at hk
          exact hother k (by omega)
        above := fun k hk => by
          rw [List.length_append, List.length_singleton] at hk
          exact hother k (by omega) }⟩

/-- What `parseline` leaves in both arrays, for a line at address 0. -/
structure ParsesTo (mem : Mem) (argv : Argv) (line : List UInt8) (q : Parsed) : Prop where
  argc : q.argc = (words space line.dropLast).length
  args : ∀ k w, (argsOf (words space line.dropLast))[k]? = some w → ∃ arg, q.argv k = some arg ∧
    0 ≤ arg ∧ arg + w.length < line.length ∧ Str q.mem arg w
  null : q.argv (argsOf (words space line.dropLast)).length = none
  top : q.argv (words space line.dropLast).length = none
  above : ∀ k, (words space line.dropLast).length < k → q.argv k = argv k
  ret : q.ret ≠ 0 ↔
    words space line.dropLast = [] ∨ background (words space line.dropLast) = true
  mem : line ≠ [] → ∀ a : Int, a < 0 ∨ line.length ≤ a → q.mem a = mem a

/-- The line with its last character overwritten. -/
theorem str_splitText {mem : Mem} {line : List UInt8} (h : Str mem 0 line) :
    Str (Function.update mem (line.length - 1) space) 0 (splitText line) := by
  rcases List.eq_nil_or_concat' line with rfl | ⟨body, c, rfl⟩
  · exact h.congr fun a ha _ => Function.update_of_ne (by simp; omega) ..
  · obtain ⟨hbytes, hnul, hmem⟩ := h
    have hlast : ((body ++ [c]).length : Int) - 1 = body.length := by simp
    rw [splitText_concat, hlast]
    refine ⟨bytes_append.mpr ⟨(bytes_append.mp hbytes).1.congr fun a _ hlt =>
      Function.update_of_ne (by omega) .., ?_, trivial⟩, ?_, ?_⟩
    · rw [zero_add, Function.update_self]
    · rw [List.length_append, List.length_singleton] at hnul ⊢
      rw [Function.update_of_ne (by push_cast; omega), hnul]
    · rw [List.mem_append, not_or] at hmem ⊢
      exact ⟨hmem.1, by decide⟩

/-- The kept words are the first ones. -/
theorem getElem?_argsOf {ws : List (List UInt8)} {k : Nat} {w : List UInt8}
    (h : (argsOf ws)[k]? = some w) : ws[k]? = some w := by
  unfold argsOf at h
  split at h
  · rw [List.getElem?_dropLast] at h
    exact (Option.ite_none_right_eq_some.mp h).2
  · exact h

/-- **`parseline`**, for every string: it splits the line without its last character, which it
overwrites. -/
theorem parseline_spec {size : Nat} {mem : Mem} {line : List UInt8} (argv : Argv)
    (h : Str mem 0 line) (hsize : line.length < size) :
    ∃ q, parseline size mem argv = some q ∧ ParsesTo mem argv line q := by
  have hstr := str_splitText h
  obtain ⟨n, t, htext, hhead⟩ := exists_replicate_append space (splitText line)
  have hlen : n + t.length = line.length := by
    rw [← length_splitText line, htext, List.length_append, List.length_replicate]
  have hws : words space t = words space line.dropLast := by
    rw [← words_splitText, htext, words_replicate_append]
  rw [htext] at hstr
  have hlast : SpaceLast (List.replicate n space ++ t) := htext ▸ spaceLast_splitText line
  have hdrop := hstr.drop
  rw [List.length_replicate, zero_add] at hdrop
  set s₀ : Parse := { mem := Function.update mem (line.length - 1) space, argv, argc := 0 }
  have hloop : ∃ s, parseLoop size size s₀ n = some s ∧ Built s₀ s n t :=
    parseLoop_spec hdrop hhead hlast.of_append (by omega) (by omega)
  obtain ⟨s, hs, hbuilt⟩ := hloop
  have hargc : s.argc = (words space t).length := hbuilt.argc.trans (Nat.zero_add _)
  have hargs : ∀ k w, (words space t)[k]? = some w → ∃ arg : Int, s.argv k = some arg ∧ 0 ≤ arg ∧
      arg + w.length < line.length ∧ Str s.mem arg w := by
    intro k w hw
    obtain ⟨arg, harg, hle, hlt, hwstr⟩ := hbuilt.args k w hw
    exact ⟨arg, (Nat.zero_add k) ▸ harg, by omega, by omega, hwstr⟩
  obtain ⟨q, hq, hended⟩ := parseEnd_spec hargc fun w hw => by
    rw [List.getLast?_eq_getElem?] at hw
    obtain ⟨arg, harg, -, -, hwstr⟩ := hargs _ w hw
    have hne : w ≠ [] := ne_nil_of_mem_words (List.mem_of_getElem? hw)
    obtain ⟨c, w', rfl⟩ := List.exists_cons_of_ne_nil hne
    exact ⟨arg, harg, by rw [List.head?_cons, hwstr.uncons.1]⟩
  rw [hws] at hended hargs
  refine ⟨q, ?_, hended.argc, fun k w hw => ?_, hended.null, hended.top, fun k hk => ?_,
    hended.ret, fun hne a ha => ?_⟩
  · rw [parseline, strlen_eq h hsize]
    simp only
    rw [skipSpaces_eq hstr hhead (by omega), zero_add]
    simp only
    rw [hs]
    exact hq
  · obtain ⟨arg, harg, hle, hlt, hwstr⟩ := hargs k w (getElem?_argsOf hw)
    refine ⟨arg, ?_, hle, hlt, hended.mem ▸ hwstr⟩
    rw [hended.below k (List.getElem?_eq_some_iff.mp hw).1, harg]
  · rw [hended.above k hk, hbuilt.argv k (.inr (by rw [hws]; exact Nat.zero_add _ ▸ hk.le))]
  · have hpos := List.length_pos_iff.mpr hne
    rw [hended.mem, hbuilt.mem a (by omega)]
    exact Function.update_of_ne (by omega) ..

/-- **The words of a line**: for a line that ends in a newline, the entries of `argv` up to the
first `NULL` are its words, each a string inside the line, without a last word that begins with
`'&'`; the result tells blank lines and such last words from others; nothing outside the line and
no entry of `argv` beyond the number of words is written. -/
theorem parseline_words (size : Nat) (mem : Mem) (argv : Argv) (body : List UInt8)
    (h : Str mem 0 (body ++ [newline])) (hsize : body.length + 1 < size) :
    ∃ q, parseline size mem argv = some q ∧
      (∀ k w, (argsOf (words space body))[k]? = some w → ∃ arg, q.argv k = some arg ∧ 0 ≤ arg ∧
        arg + w.length < body.length + 1 ∧ Str q.mem arg w) ∧
      q.argv (argsOf (words space body)).length = none ∧
      (q.ret ≠ 0 ↔ words space body = [] ∨ background (words space body) = true) ∧
      (∀ a : Int, a < 0 ∨ body.length + 1 ≤ a → q.mem a = mem a) ∧
      ∀ k, (words space body).length < k → q.argv k = argv k := by
  have hlen : (body ++ [newline]).length = body.length + 1 := by simp
  obtain ⟨q, hq, hspec⟩ := parseline_spec argv h (hlen ▸ hsize)
  have hmem := hspec.mem (by simp)
  obtain ⟨-, hargs, hnull, -, habove, hret, -⟩ := hspec
  rw [List.dropLast_concat] at hargs hnull habove hret
  rw [hlen] at hargs hmem
  exact ⟨q, hq, mod_cast hargs, hnull, hret, fun a ha => hmem a (by push_cast; exact ha), habove⟩

/-- The line `" ls &"`: one word is left, for a job in the background. -/
theorem parseline_words_background : ∃ q,
    parseline 8 (strcpy (fun _ => 0) 0 [32, 108, 115, 32, 38, 10]) (fun _ => some 7) = some q ∧
      (∃ arg, q.argv 0 = some arg ∧ Str q.mem arg [108, 115]) ∧ q.argv 1 = none ∧ q.ret ≠ 0 := by
  obtain ⟨q, hq, hargs, hnull, hret, -⟩ := parseline_words 8
    (strcpy (fun _ => 0) 0 [32, 108, 115, 32, 38, 10]) (fun _ => some 7) [32, 108, 115, 32, 38]
    (str_strcpy (by decide)) (by decide)
  obtain ⟨arg, harg, -, -, hstr⟩ := hargs 0 [108, 115] (by decide)
  exact ⟨q, hq, ⟨arg, harg, hstr⟩, hnull, hret.mpr (by decide)⟩

/-! ## the size of argv -/

/-- `parseline`, called from `eval` with whatever `argv` holds, leaves the memory behind `argv`
alone. -/
def ArgvInBounds (buf : Mem) (cmdline : List UInt8) : Prop :=
  ∀ argv, ∃ q, parseline maxline (strcpy buf 0 cmdline) argv = some q ∧
    ∀ k, maxargs ≤ k → q.argv k = argv k

/-- With 128 words or more the terminating `NULL` is written behind `argv`, at least. -/
theorem not_argvInBounds {buf : Mem} {cmdline : List UInt8} (h0 : 0 ∉ cmdline)
    (hlen : cmdline.length < maxline)
    (hmany : maxargs ≤ (words space cmdline.dropLast).length) : ¬ ArgvInBounds buf cmdline := by
  intro hin
  obtain ⟨q, hq, hspec⟩ := parseline_spec (fun _ => some 0) (str_strcpy h0) hlen
  obtain ⟨q', hq', hkeep⟩ := hin fun _ => some 0
  obtain rfl : q = q' := Option.some.inj (hq.symm.trans hq')
  exact absurd (hkeep _ hmany) (by rw [hspec.top]; exact (Option.some_ne_none _).symm)

/-- **When `argv` is large enough**: for every command line of at most `MAXLINE - 1` characters,
exactly if it has at most 127 words. -/
theorem argv_in_bounds_iff (buf : Mem) (cmdline : List UInt8) (h0 : 0 ∉ cmdline)
    (hlen : cmdline.length < maxline) :
    ArgvInBounds buf cmdline ↔ (words space cmdline.dropLast).length < maxargs := by
  constructor
  · intro hin
    by_contra hmany
    exact not_argvInBounds h0 hlen (not_lt.mp hmany) hin
  · intro hfew argv
    obtain ⟨q, hq, hspec⟩ := parseline_spec argv (str_strcpy h0) hlen
    exact ⟨q, hq, fun k hk => hspec.above k (by omega)⟩

/-- A line of `n` words of one letter. -/
def letters (n : Nat) : List UInt8 := (List.replicate n [97, 32]).flatten ++ [10]

/-- A line of 128 words overruns `argv`. -/
theorem argv_overrun : ¬ ∀ buf cmdline, 0 ∉ cmdline → cmdline.length < maxline →
    ArgvInBounds buf cmdline := by
  intro hall
  have h0 : 0 ∉ letters 128 := by decide +kernel
  have hlen : (letters 128).length < maxline := by decide +kernel
  exact not_argvInBounds h0 hlen (by decide +kernel) (hall (fun _ => 0) (letters 128) h0 hlen)

/-- A line of 127 words does not. -/
theorem argv_in_bounds_iff_127 : ArgvInBounds (fun _ => 0) (letters 127) :=
  (argv_in_bounds_iff _ (letters 127) (by decide +kernel) (by decide +kernel)).mpr
    (by decide +kernel)

end SysDemos.Shellex
