import Mathlib.Data.List.Basic
import Mathlib.Tactic.Common

/-! # Words of the shell

    Word splitting and quote removal of a POSIX shell, for text in which
    blanks and single quotes are the only characters with a meaning.

    * **Reading words**: `lex` carries the word that is being read, so that a
      text can be read piece by piece (`lex_append_plain`, `lex_quoted`).
    * **Unquoted text**: reading it loses its blanks and nothing else
      (`lex_unquoted`).
    * **Command substitution**: what a command prints, less the newlines at
      its end.
-/

namespace Shell

/-- The characters that end a word. -/
def isblank (ch : Char) : Bool := ch == ' ' || ch == '\t' || ch == '\n'

/-- Put the words that are complete in front of the rest. -/
def emit (ws : List (List Char)) (rest : Option (List (List Char))) : Option (List (List Char)) :=
  rest.map (ws ++ ·)

/-- Reading a text from the state inside or outside of quotes, with the word
    begun so far; `none` if a quote is left open. -/
def lex : Bool → Option (List Char) → List Char → Option (List (List Char))
  | true, _, [] => none
  | false, word, [] => some word.toList
  | true, word, ch :: rest =>
    if ch = '\'' then lex false word rest
    else lex true (some (word.getD [] ++ [ch])) rest
  | false, word, ch :: rest =>
    if isblank ch then emit word.toList (lex false none rest)
    else if ch = '\'' then lex true (some (word.getD [])) rest
    else lex false (some (word.getD [] ++ [ch])) rest

/-- The words of a text. -/
def words (text : List Char) : Option (List (List Char)) := lex false none text

@[simp] theorem emit_nil (rest : Option (List (List Char))) : emit [] rest = rest := by
  cases rest <;> rfl

theorem emit_emit (ws vs : List (List Char)) (rest : Option (List (List Char))) :
    emit ws (emit vs rest) = emit (ws ++ vs) rest := by
  cases rest with
  | none => rfl
  | some rest => simp [emit]

/-- Text without a meaning to the shell. -/
def Plain (text : List Char) : Prop := ∀ ch ∈ text, isblank ch = false ∧ ch ≠ '\''

/-- Text without quotes. -/
def Unquoted (text : List Char) : Prop := '\'' ∉ text

/-! ## Reading a text piece by piece -/

theorem lex_blank (word : Option (List Char)) {ch : Char} (hch : isblank ch = true)
    (rest : List Char) : lex false word (ch :: rest) = emit word.toList (lex false none rest) := by
  rw [lex, if_pos hch]

theorem lex_open (word : Option (List Char)) (rest : List Char) :
    lex false word ('\'' :: rest) = lex true (some (word.getD [])) rest := by
  rw [lex, if_neg (by decide), if_pos rfl]

theorem lex_close (word : Option (List Char)) (rest : List Char) :
    lex true word ('\'' :: rest) = lex false word rest := by
  rw [lex, if_pos rfl]

/-- Plain text extends the word. -/
theorem lex_plain {text : List Char} (h : Plain text) (word : List Char) (rest : List Char) :
    lex false (some word) (text ++ rest) = lex false (some (word ++ text)) rest := by
  induction text generalizing word with
  | nil => simp
  | cons ch text ih =>
    obtain ⟨⟨hblank, hquote⟩, htext⟩ := List.forall_mem_cons.mp h
    rw [List.cons_append, lex, if_neg (by simp [hblank]), if_neg hquote, Option.getD_some,
      ih htext, List.append_assoc, List.singleton_append]

/-- It begins one, unless it is empty. -/
theorem lex_plain_begin {text : List Char} (h : Plain text) (hne : text ≠ []) (rest : List Char) :
    lex false none (text ++ rest) = lex false (some text) rest := by
  cases text with
  | nil => exact absurd rfl hne
  | cons ch text =>
    obtain ⟨⟨hblank, hquote⟩, htext⟩ := List.forall_mem_cons.mp h
    rw [List.cons_append, lex, if_neg (by simp [hblank]), if_neg hquote, lex_plain htext]
    rfl

/-- Quoted text extends the word, blanks included. -/
theorem lex_quoted {text : List Char} (h : Unquoted text) (word : List Char) (rest : List Char) :
    lex true (some word) (text ++ '\'' :: rest) = lex false (some (word ++ text)) rest := by
  induction text generalizing word with
  | nil => rw [List.nil_append, lex_close, List.append_nil]
  | cons ch text ih =>
    have hch : ch ≠ '\'' := fun heq => h (by simp [heq])
    have htext : Unquoted text := fun hmem => h (by simp [hmem])
    rw [List.cons_append, lex, if_neg hch, Option.getD_some, ih htext, List.append_assoc,
      List.singleton_append]

/-- Unquoted text falls into words, and keeps all but its blanks. -/
theorem lex_unquoted {text : List Char} (h : Unquoted text) (word : Option (List Char)) :
    ∃ ws word', (∀ rest, lex false word (text ++ rest) = emit ws (lex false word' rest)) ∧
      ws.flatten ++ word'.getD [] = word.getD [] ++ text.filter fun ch => !isblank ch := by
  induction text generalizing word with
  | nil => exact ⟨[], word, fun rest => by rw [emit_nil, List.nil_append], by simp⟩
  | cons ch text ih =>
    have hch : ch ≠ '\'' := fun heq => h (by simp [heq])
    have htext : Unquoted text := fun hmem => h (by simp [hmem])
    by_cases hblank : isblank ch = true
    · -- the blank ends the word begun before, and is lost itself
      obtain ⟨ws, word', hlex, hflat⟩ := ih htext none
      refine ⟨word.toList ++ ws, word', ?_, ?_⟩
      · intro rest
        rw [List.cons_append, lex_blank word hblank, hlex, emit_emit]
      · rw [List.flatten_append, List.append_assoc, hflat, List.filter_cons_of_neg (by simp [hblank])]
        cases word <;> simp
    · -- any other character stays, in the word that is being read
      obtain ⟨ws, word', hlex, hflat⟩ := ih htext (some (word.getD [] ++ [ch]))
      refine ⟨ws, word', ?_, ?_⟩
      · intro rest
        rw [List.cons_append, lex, if_neg hblank, if_neg hch, hlex]
      · rw [hflat, Option.getD_some, List.filter_cons_of_pos (by simp [hblank]), List.append_assoc,
          List.singleton_append]

/-! ## Command substitution -/

/-- The output of a command without the newlines at its end. -/
def command_substitution (output : List Char) : List Char :=
  (output.reverse.dropWhile (· == '\n')).reverse

/-- Text without a newline has none at its end. -/
theorem dropWhile_reverse {text : List Char} (h : '\n' ∉ text) :
    text.reverse.dropWhile (· == '\n') = text.reverse := by
  cases hrev : text.reverse with
  | nil => rfl
  | cons ch t =>
    have hch : ch ≠ '\n' := by
      intro heq
      apply h
      rw [← List.mem_reverse, hrev, heq]
      exact List.mem_cons_self
    exact List.dropWhile_cons_of_neg (by simpa using hch)

theorem command_substitution_of_notMem {text : List Char} (h : '\n' ∉ text) :
    command_substitution text = text := by
  unfold command_substitution
  rw [dropWhile_reverse h, List.reverse_reverse]

theorem command_substitution_append_newline {text : List Char} (h : '\n' ∉ text) :
    command_substitution (text ++ ['\n']) = text := by
  unfold command_substitution
  rw [List.reverse_append, List.reverse_singleton, List.singleton_append,
    List.dropWhile_cons_of_pos (by decide), dropWhile_reverse h, List.reverse_reverse]

/-- Only the newline at the end is lost, if the last line is not empty. -/
theorem command_substitution_ended {text : List Char} (h : text.getLast? ≠ some '\n') :
    command_substitution (text ++ ['\n']) = text := by
  unfold command_substitution
  rw [List.reverse_append, List.reverse_singleton, List.singleton_append,
    List.dropWhile_cons_of_pos (by decide)]
  have hdrop : text.reverse.dropWhile (· == '\n') = text.reverse := by
    rw [← List.head?_reverse] at h
    cases hrev : text.reverse with
    | nil => rfl
    | cons ch t =>
      rw [hrev, List.head?_cons, Ne, Option.some.injEq] at h
      exact List.dropWhile_cons_of_neg (by simpa using h)
  rw [hdrop, List.reverse_reverse]

/-- What ends without a newline stays. -/
theorem command_substitution_append {text : List Char} (h : '\n' ∉ text) (rest : List Char) :
    ∃ rest', command_substitution (text ++ rest) = text ++ rest' := by
  unfold command_substitution
  rw [List.reverse_append, List.dropWhile_append]
  split
  · refine ⟨[], ?_⟩
    rw [dropWhile_reverse h, List.reverse_reverse, List.append_nil]
  · exact ⟨_, by rw [List.reverse_append, List.reverse_reverse]⟩

/-- It invents no character. -/
theorem mem_of_mem_command_substitution {ch : Char} {output : List Char}
    (h : ch ∈ command_substitution output) : ch ∈ output := by
  unfold command_substitution at h
  rw [List.mem_reverse] at h
  exact List.mem_reverse.mp ((List.dropWhile_suffix _).subset h)

end Shell
