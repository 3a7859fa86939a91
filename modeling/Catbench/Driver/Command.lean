import Catbench.Framework.Shell
import Mathlib.Data.Bool.AllAny

/-! # The recorded command (`driver`)

    `driver` stores its arguments as one string, in `meta.command` and for its
    own `eval`.  An argument is put into single quotes when a trial evaluation
    does not give it back; a `sed` then moves an opening quote behind the
    first equals sign that follows it, so that the string reads
    `VAR='a b' ./program` and not `'VAR=a b' ./program`.
-/

open Shell

namespace Driver

/-! ## Section 1: Model -/

/-- `printf "%s\n"`, which prints its format once when it has no argument. -/
def printf_lines (args : List (List Char)) : List Char :=
  if args.isEmpty then ['\n'] else args.flatMap (· ++ ['\n'])

/-- The trial evaluation does not give the text back.  A text that the shell
    cannot parse prints nothing. -/
def shell_needs_protection (thing_that_might_need_protection : List Char) : Bool :=
  command_substitution (((words thing_that_might_need_protection).map printf_lines).getD [])
    != thing_that_might_need_protection

/-- `sed "s/'\([^=]*=\)/\1'/g"`.  The flag is set between a quote that has been
    taken out and the equals sign behind which it is put. -/
def move_quotes : Bool → List Char → List Char
  | _, [] => []
  | false, ch :: rest =>
    if ch = '\'' ∧ '=' ∈ rest then move_quotes true rest else ch :: move_quotes false rest
  | true, ch :: rest =>
    if ch = '=' then '=' :: '\'' :: move_quotes false rest else ch :: move_quotes true rest

/-- What one iteration of the loop prints. -/
def quoted_argument (arg : List Char) : List Char :=
  let delim := if arg.isEmpty || shell_needs_protection arg then ['\''] else []
  move_quotes false (' ' :: (delim ++ arg ++ delim))

/-- `cut -d" " -f2-` of a line. -/
def cut_f2_on (line : List Char) : List Char :=
  if ' ' ∈ line then (line.dropWhile (· ≠ ' ')).drop 1 else line

/-- The output of `shell_quoted_arguments`. -/
def shell_quoted_arguments (args : List (List Char)) : List Char :=
  cut_f2_on (args.flatMap quoted_argument) ++ ['\n']

/-- The variable `args`, which is evaluated and stored as `meta.command`. -/
def command (args : List (List Char)) : List Char :=
  command_substitution (shell_quoted_arguments args)

/-! ## Section 2: The encoding -/

/-- The characters an argument is made of here. -/
def Allowed (ch : Char) : Prop := ch.isAlphanum = true ∨ ch ∈ [' ', '=', '_', '.', ',', '/', '-']

instance (ch : Char) : Decidable (Allowed ch) := inferInstanceAs (Decidable (_ ∨ _))

theorem Allowed.ne_quote {ch : Char} (h : Allowed ch) : ch ≠ '\'' := by
  intro heq
  subst heq
  exact absurd h (by decide)

theorem Allowed.ne_newline {ch : Char} (h : Allowed ch) : ch ≠ '\n' := by
  intro heq
  subst heq
  exact absurd h (by decide)

theorem Allowed.isblank_eq {ch : Char} (h : Allowed ch) : isblank ch = decide (ch = ' ') := by
  have htab : ch ≠ '\t' := by
    intro heq
    subst heq
    exact absurd h (by decide)
  rw [isblank, beq_false_of_ne htab, beq_false_of_ne h.ne_newline, Bool.or_false, Bool.or_false]
  rfl

section argument
variable {arg : List Char}

theorem unquoted_of_allowed (h : ∀ ch ∈ arg, Allowed ch) : Unquoted arg := by
  intro hmem
  exact (h _ hmem).ne_quote rfl

theorem plain_of_allowed (h : ∀ ch ∈ arg, Allowed ch) (hspace : ' ' ∉ arg) : Plain arg := by
  intro ch hch
  refine ⟨?_, (h ch hch).ne_quote⟩
  rw [(h ch hch).isblank_eq, decide_eq_false_iff_not]
  intro heq
  exact hspace (heq ▸ hch)

/-- The trial evaluation fails for the arguments with a space. -/
theorem shell_needs_protection_iff (h : ∀ ch ∈ arg, Allowed ch) (hne : arg ≠ []) :
    shell_needs_protection arg = true ↔ ' ' ∈ arg := by
  unfold shell_needs_protection words
  rw [bne_iff_ne]
  by_cases hspace : ' ' ∈ arg
  · -- what is printed has no space in it
    obtain ⟨ws, word', hlex, hflat⟩ := lex_unquoted (unquoted_of_allowed h) none
    have hwords : lex false none arg = some (ws ++ word'.toList) := by
      have := hlex []
      rw [List.append_nil] at this
      rw [this]
      rfl
    simp only [hspace, iff_true]
    intro heq
    rw [hwords] at heq
    have hmem : ' ' ∈ printf_lines (ws ++ word'.toList) := by
      apply mem_of_mem_command_substitution
      rw [show command_substitution (printf_lines (ws ++ word'.toList)) = arg from heq]
      exact hspace
    have hin : ' ' ∈ (ws ++ word'.toList).flatten := by
      unfold printf_lines at hmem
      split at hmem
      · exact absurd hmem (by decide)
      · obtain ⟨w, hw, hch⟩ := List.mem_flatMap.mp hmem
        rcases List.mem_append.mp hch with hch | hch
        · exact List.mem_flatten.mpr ⟨w, hw, hch⟩
        · exact absurd hch (by decide)
    have hflat' : (ws ++ word'.toList).flatten = arg.filter fun ch => !isblank ch := by
      rw [List.flatten_append]
      cases word' with
      | none => simpa using hflat
      | some word' => simpa using hflat
    rw [hflat'] at hin
    exact absurd (List.mem_filter.mp hin).2 (by decide)
  · have hread : lex false none arg = some [arg] := by
      have := lex_plain_begin (plain_of_allowed h hspace) hne []
      rw [List.append_nil] at this
      rw [this]
      rfl
    simp only [hspace, iff_false, not_not]
    rw [hread]
    have hnl : '\n' ∉ arg := fun hmem => (h _ hmem).ne_newline rfl
    simpa [printf_lines] using command_substitution_append_newline hnl

/-- Without a quote `sed` finds nothing to move. -/
theorem move_quotes_append {text : List Char} (h : Unquoted text) (rest : List Char) :
    move_quotes false (text ++ rest) = text ++ move_quotes false rest := by
  induction text with
  | nil => rfl
  | cons ch text ih =>
    have hch : ch ≠ '\'' := fun heq => h (by simp [heq])
    rw [List.cons_append, move_quotes, if_neg (fun hmove => hch hmove.1),
      ih (fun hmem => h (by simp [hmem])), List.cons_append]

/-- Nor does it without an equals sign. -/
theorem move_quotes_of_not_mem {text : List Char} (h : '=' ∉ text) :
    move_quotes false text = text := by
  induction text with
  | nil => rfl
  | cons ch text ih =>
    have htext : '=' ∉ text := fun hmem => h (by simp [hmem])
    rw [move_quotes, if_neg (fun hmove => htext hmove.2), ih htext]

/-- A quote that is taken out goes behind the first equals sign. -/
theorem move_quotes_true {pre : List Char} (h : '=' ∉ pre) (rest : List Char) :
    move_quotes true (pre ++ '=' :: rest) = pre ++ '=' :: '\'' :: move_quotes false rest := by
  induction pre with
  | nil => rw [List.nil_append, move_quotes, if_pos rfl, List.nil_append]
  | cons ch pre ih =>
    have hch : ch ≠ '=' := fun heq => h (by simp [heq])
    rw [List.cons_append, move_quotes, if_neg hch, ih (fun hmem => h (by simp [hmem])),
      List.cons_append]

/-- The argument has a space before its first equals sign. -/
def SpaceBeforeEq (arg : List Char) : Prop :=
  '=' ∈ arg ∧ ' ' ∈ arg.takeWhile (· ≠ '=')

instance (arg : List Char) : Decidable (SpaceBeforeEq arg) := inferInstanceAs (Decidable (_ ∧ _))

theorem spaceBeforeEq_iff {pre post : List Char} (harg : arg = pre ++ '=' :: post)
    (hpre : '=' ∉ pre) : SpaceBeforeEq arg ↔ ' ' ∈ pre := by
  have htake : (pre ++ '=' :: post).takeWhile (fun ch => decide (ch ≠ '=')) = pre := by
    rw [List.takeWhile_append_of_pos]
    · rw [List.takeWhile_cons_of_neg (by decide), List.append_nil]
    · intro ch hch
      rw [decide_eq_true_eq]
      intro heq
      exact hpre (heq ▸ hch)
  unfold SpaceBeforeEq
  rw [harg, htake]
  simp

/-- How an argument is printed: as it is, or in quotes, which open behind the
    first equals sign if there is one. -/
theorem quoted_argument_cases (h : ∀ ch ∈ arg, Allowed ch) :
    (arg ≠ [] ∧ ' ' ∉ arg ∧ quoted_argument arg = ' ' :: arg) ∨
    ((arg = [] ∨ ' ' ∈ arg) ∧ '=' ∉ arg ∧
      quoted_argument arg = ' ' :: '\'' :: (arg ++ ['\''])) ∨
    (∃ pre post, arg = pre ++ '=' :: post ∧ '=' ∉ pre ∧ ' ' ∈ arg ∧
      quoted_argument arg = ' ' :: (pre ++ '=' :: '\'' :: (post ++ ['\'']))) := by
  have hunquoted := unquoted_of_allowed h
  by_cases hquote : arg = [] ∨ ' ' ∈ arg
  · right
    have hdelim : (arg.isEmpty || shell_needs_protection arg) = true := by
      by_cases hne : arg = []
      · subst hne
        rfl
      · rw [Bool.or_eq_true]
        exact Or.inr ((shell_needs_protection_iff h hne).mpr (hquote.resolve_left hne))
    have hprint : quoted_argument arg = move_quotes false (' ' :: '\'' :: (arg ++ ['\''])) := by
      unfold quoted_argument
      rw [hdelim]
      rfl
    have hspace : move_quotes false (' ' :: '\'' :: (arg ++ ['\'']))
        = ' ' :: move_quotes false ('\'' :: (arg ++ ['\''])) := by
      rw [move_quotes, if_neg (fun hmove => absurd hmove.1 (by decide))]
    rw [hprint, hspace]
    by_cases heq : '=' ∈ arg
    · right
      -- the text up to the first equals sign
      obtain ⟨pre, post, harg, hpre⟩ := List.eq_append_cons_of_mem heq
      have hspace' : ' ' ∈ arg := hquote.resolve_left (List.ne_nil_of_mem heq)
      have hpost : Unquoted post := fun hmem => hunquoted (by rw [harg]; simp [hmem])
      refine ⟨pre, post, harg, hpre, hspace', ?_⟩
      rw [move_quotes, if_pos ⟨rfl, by simp [heq]⟩, harg, List.append_assoc, List.cons_append,
        move_quotes_true hpre, move_quotes_append hpost]
      rfl
    · left
      refine ⟨hquote, heq, ?_⟩
      rw [move_quotes_of_not_mem (by simp [heq])]
  · left
    push Not at hquote
    refine ⟨hquote.1, hquote.2, ?_⟩
    have hdelim : (arg.isEmpty || shell_needs_protection arg) = false := by
      rw [Bool.or_eq_false_iff]
      refine ⟨by simp [hquote.1], ?_⟩
      rw [Bool.eq_false_iff]
      intro hneeds
      exact hquote.2 ((shell_needs_protection_iff h hquote.1).mp hneeds)
    unfold quoted_argument
    rw [hdelim]
    have hall : Unquoted (' ' :: arg) := by
      intro hmem
      rcases List.mem_cons.mp hmem with hfirst | hrest
      · exact absurd hfirst (by decide)
      · exact hunquoted hrest
    simpa [move_quotes] using move_quotes_append hall []

/-- An argument is printed behind a space, and on one line. -/
theorem quoted_argument_line (h : ∀ ch ∈ arg, Allowed ch) :
    ∃ text, quoted_argument arg = ' ' :: text ∧ '\n' ∉ text := by
  have hline : '\n' ∉ arg := fun hmem => (h _ hmem).ne_newline rfl
  rcases quoted_argument_cases h with ⟨-, -, hprint⟩ | ⟨-, -, hprint⟩ | ⟨pre, post, harg, -, -, hprint⟩
  · exact ⟨arg, hprint, hline⟩
  · exact ⟨_, hprint, by simp [hline]⟩
  · rw [harg] at hline
    simp only [List.mem_append, List.mem_cons, not_or] at hline
    exact ⟨_, hprint, by simp [hline.1, hline.2.2]⟩

/-- The text up to the moved quote is read like any unquoted text. -/
theorem moved_quote_lex {pre post : List Char} (word : Option (List Char)) (rest : List Char) :
    lex false word ((' ' :: (pre ++ '=' :: '\'' :: (post ++ ['\'']))) ++ rest)
      = emit word.toList (lex false none ((pre ++ ['=']) ++ '\'' :: (post ++ '\'' :: rest))) := by
  rw [List.cons_append, lex_blank word (by decide)]
  simp

/-- With a space before the moved quote, the argument is split there. -/
theorem moved_quote_splits {pre post : List Char} (hpre : Unquoted (pre ++ ['=']))
    (hpost : Unquoted post) (hspace : ' ' ∈ pre) :
    ∃ ws last, (∀ word rest, lex false word ((' ' :: (pre ++ '=' :: '\'' :: (post ++ ['\'']))) ++ rest)
        = emit (word.toList ++ ws) (lex false (some last) rest)) ∧
      (ws.flatten ++ last).count ' ' < (pre ++ '=' :: post).count ' ' := by
  obtain ⟨ws, word', hlex, hflat⟩ := lex_unquoted hpre none
  refine ⟨ws, word'.getD [] ++ post, ?_, ?_⟩
  · intro word rest
    rw [moved_quote_lex, hlex, lex_open, lex_quoted hpost, emit_emit]
  · -- the spaces of the first part are gone
    have hnone : ((pre ++ ['=']).filter fun ch => !isblank ch).count ' ' = 0 := by
      apply List.count_eq_zero.mpr
      intro hmem
      exact absurd (List.mem_filter.mp hmem).2 (by decide)
    have hsome : 0 < pre.count ' ' := List.count_pos_iff.mpr hspace
    rw [← List.append_assoc, hflat, List.count_append, List.count_append,
      List.count_append, hnone, List.count_cons_of_ne (by decide)]
    simp only [Option.getD_none, List.count_nil]
    omega

/-- Without one, it is read back. -/
theorem moved_quote_reads {pre post : List Char} (hpre : Plain (pre ++ ['=']))
    (hpost : Unquoted post) (word : Option (List Char)) (rest : List Char) :
    lex false word ((' ' :: (pre ++ '=' :: '\'' :: (post ++ ['\'']))) ++ rest)
      = emit word.toList (lex false (some (pre ++ '=' :: post)) rest) := by
  rw [moved_quote_lex, lex_plain_begin hpre (by simp), lex_open, Option.getD_some,
    lex_quoted hpost]
  simp

/-- What the shell makes of a printed argument: the argument itself, or words
    with fewer spaces when it has one before its first equals sign. -/
theorem quoted_argument_read (h : ∀ ch ∈ arg, Allowed ch) :
    ∃ ws last, (∀ word rest, lex false word (quoted_argument arg ++ rest)
        = emit (word.toList ++ ws) (lex false (some last) rest)) ∧
      (¬SpaceBeforeEq arg → ws = [] ∧ last = arg) ∧
      (SpaceBeforeEq arg → (ws.flatten ++ last).count ' ' < arg.count ' ') := by
  have hunquoted := unquoted_of_allowed h
  rcases quoted_argument_cases h with ⟨hne, hspace, hprint⟩ | ⟨-, heq, hprint⟩ |
    ⟨pre, post, harg, hpre, hspace, hprint⟩
  · refine ⟨[], arg, ?_, fun _ => ⟨rfl, rfl⟩, ?_⟩
    · intro word rest
      rw [hprint, List.cons_append, lex_blank word (by decide),
        lex_plain_begin (plain_of_allowed h hspace) hne, List.append_nil]
    · intro hbad
      exact absurd ((List.takeWhile_prefix _).subset hbad.2) hspace
  · refine ⟨[], arg, ?_, fun _ => ⟨rfl, rfl⟩, ?_⟩
    · intro word rest
      rw [hprint, List.cons_append, lex_blank word (by decide), List.cons_append, lex_open,
        List.append_assoc, List.singleton_append, lex_quoted hunquoted, List.append_nil]
      rfl
    · intro hbad
      exact absurd hbad.1 heq
  · have hpost : Unquoted post := fun hmem => hunquoted (by rw [harg]; simp [hmem])
    have hfront : ∀ ch ∈ pre ++ ['='], Allowed ch := by
      intro ch hch
      apply h
      rw [harg]
      rcases List.mem_append.mp hch with hch | hch
      · simp [hch]
      · simp [List.mem_singleton.mp hch]
    rw [hprint]
    by_cases hbad : ' ' ∈ pre
    · obtain ⟨ws, last, hlex, hfewer⟩ :=
        moved_quote_splits (unquoted_of_allowed hfront) hpost hbad
      refine ⟨ws, last, hlex, ?_, ?_⟩
      · intro hgood
        exact absurd ((spaceBeforeEq_iff harg hpre).mpr hbad) hgood
      · intro _
        rw [harg]
        exact hfewer
    · have hplain : Plain (pre ++ ['=']) := plain_of_allowed hfront (by simp [hbad])
      refine ⟨[], arg, ?_, fun _ => ⟨rfl, rfl⟩, ?_⟩
      · intro word rest
        rw [moved_quote_reads hplain hpost, List.append_nil, ← harg]
      · intro hspaced
        exact absurd ((spaceBeforeEq_iff harg hpre).mp hspaced) hbad

end argument

/-! ## Section 3: The round trip -/

/-- What the shell makes of all printed arguments. -/
theorem quoted_arguments_read {args : List (List Char)} (h : ∀ arg ∈ args, ∀ ch ∈ arg, Allowed ch) :
    ∃ vs, (∀ word, lex false word (args.flatMap quoted_argument) = some (word.toList ++ vs)) ∧
      ((∀ arg ∈ args, ¬SpaceBeforeEq arg) → vs = args) ∧
      vs.flatten.count ' ' ≤ args.flatten.count ' ' ∧
      ((∃ arg ∈ args, SpaceBeforeEq arg) → vs.flatten.count ' ' < args.flatten.count ' ') := by
  induction args with
  | nil =>
    refine ⟨[], ?_, fun _ => rfl, Nat.le_refl _, ?_⟩
    · intro word
      rw [List.append_nil]
      rfl
    · intro hbad
      obtain ⟨arg, hmem, -⟩ := hbad
      cases hmem
  | cons arg args ih =>
    obtain ⟨harg, hargs⟩ := List.forall_mem_cons.mp h
    obtain ⟨vs, hread, hgood, hle, hlt⟩ := ih hargs
    obtain ⟨ws, last, hfirst, hgood₁, hlt₁⟩ := quoted_argument_read harg
    have hcount : (ws ++ last :: vs).flatten.count ' '
        = (ws.flatten ++ last).count ' ' + vs.flatten.count ' ' := by
      simp [List.count_append, Nat.add_assoc]
    have hcount' : (arg :: args).flatten.count ' '
        = arg.count ' ' + args.flatten.count ' ' := by
      rw [List.flatten_cons, List.count_append]
    -- the words of one argument never have more spaces than the argument
    have hle₁ : (ws.flatten ++ last).count ' ' ≤ arg.count ' ' := by
      by_cases hbad : SpaceBeforeEq arg
      · exact Nat.le_of_lt (hlt₁ hbad)
      · obtain ⟨rfl, rfl⟩ := hgood₁ hbad
        exact Nat.le_refl _
    refine ⟨ws ++ last :: vs, ?_, ?_, ?_, ?_⟩
    · intro word
      rw [List.flatMap_cons, hfirst, hread]
      simp [emit]
    · intro hall
      obtain ⟨hhead, htail⟩ := List.forall_mem_cons.mp hall
      obtain ⟨rfl, rfl⟩ := hgood₁ hhead
      rw [hgood htail, List.nil_append]
    · omega
    · intro hsome
      obtain ⟨bad, hmem, hbad⟩ := hsome
      rw [hcount, hcount']
      rcases List.mem_cons.mp hmem with heq | hmem
      · rw [heq] at hbad
        have := hlt₁ hbad
        omega
      · have := hlt ⟨bad, hmem, hbad⟩
        omega

/-- The leading space of the first argument is cut off again, and nothing else. -/
theorem command_eq {args : List (List Char)} (hne : args ≠ [])
    (h : ∀ arg ∈ args, ∀ ch ∈ arg, Allowed ch) :
    ' ' :: command args = args.flatMap quoted_argument := by
  have hlines : '\n' ∉ args.flatMap quoted_argument := by
    intro hmem
    obtain ⟨arg, harg, hch⟩ := List.mem_flatMap.mp hmem
    obtain ⟨text, hprint, hline⟩ := quoted_argument_line (h arg harg)
    rw [hprint] at hch
    rcases List.mem_cons.mp hch with hspace | htext
    · exact absurd hspace (by decide)
    · exact hline htext
  cases args with
  | nil => exact absurd rfl hne
  | cons arg args =>
    obtain ⟨text, hprint, -⟩ := quoted_argument_line (h arg List.mem_cons_self)
    rw [List.flatMap_cons, hprint, List.cons_append] at hlines
    have hrest : '\n' ∉ text ++ args.flatMap quoted_argument := fun hmem =>
      hlines (List.mem_cons_of_mem _ hmem)
    unfold command shell_quoted_arguments
    rw [List.flatMap_cons, hprint, List.cons_append, cut_f2_on, if_pos List.mem_cons_self,
      List.dropWhile_cons_of_neg (by decide), List.drop_one, List.tail_cons,
      command_substitution_append_newline hrest]

/-- **Round trip**: the recorded command gives the arguments back iff none of
    them has a space before its first equals sign. -/
theorem command_round_trip_iff {args : List (List Char)} (hne : args ≠ [])
    (h : ∀ arg ∈ args, ∀ ch ∈ arg, Allowed ch) :
    words (command args) = some args ↔ ∀ arg ∈ args, ¬SpaceBeforeEq arg := by
  obtain ⟨vs, hread, hgood, -, hlt⟩ := quoted_arguments_read h
  have hwords : words (command args) = some vs := by
    have hcut := hread none
    rw [← command_eq hne h, lex_blank none (by decide)] at hcut
    simpa [words] using hcut
  rw [hwords, Option.some.injEq]
  constructor
  · intro heq arg hmem hbad
    have := hlt ⟨arg, hmem, hbad⟩
    rw [heq] at this
    exact Nat.lt_irrefl _ this
  · exact hgood

/-- An assignment, a program and an argument with a space. -/
theorem command_round_trip_assignment :
    words (command ["THREADS=1 2".toList, "./run".toList, "a b".toList, []])
      = some ["THREADS=1 2".toList, "./run".toList, "a b".toList, []] := by
  apply (command_round_trip_iff (List.cons_ne_nil _ _) ?_).mpr (by decide)
  intro arg harg
  simp only [List.mem_cons, List.not_mem_nil, or_false] at harg
  rcases harg with rfl | rfl | rfl | rfl <;> exact List.all_iff_forall_prop.mp (by decide)

/-- The quote is moved out of the argument's first word, which then stands
    alone. -/
theorem command_splits_argument :
    (∀ ch ∈ "a b=c".toList, Allowed ch) ∧
      command ["a b=c".toList] = "a b='c'".toList ∧
      words (command ["a b=c".toList]) = some ["a".toList, "b=c".toList] ∧
      words (command ["a b=c".toList]) ≠ some ["a b=c".toList] := by
  have hallowed : ∀ ch ∈ "a b=c".toList, Allowed ch :=
    List.all_iff_forall_prop.mp (by decide)
  exact ⟨hallowed, by decide, by decide, by decide⟩

end Driver
