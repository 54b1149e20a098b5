import JacobOS.Kernel.Shell
import JacobOS.Lib.Fields

/-!
# The words of a command line

`tokenize` ends a word only when it skips the spaces after it, and that it does at the start of the next pass of its
loop.  After the last argument there is room for there is no next pass.
-/

namespace JacobOS.Shell

open CString Fields

/-- The maximal runs of characters other than a space. -/
def words (line : List UInt8) : List (List UInt8) := fields 0x20 (cstr line)

/-! ## The two scans -/

theorem skipSpaces_eq (s : List UInt8) : s = List.replicate (skipSpaces s) 0x20 ++ s.drop (skipSpaces s) := by
  induction s with
  | nil => rfl
  | cons c s ih =>
    rw [skipSpaces]
    by_cases hc : c = 0x20
    · rw [if_pos hc, List.replicate_succ, List.drop_succ_cons, List.cons_append, ← ih, hc]
    · rw [if_neg hc]
      rfl

theorem skipSpaces_stop (s : List UInt8) : (s.drop (skipSpaces s)).getD 0 0 ≠ 0x20 := by
  induction s with
  | nil => decide
  | cons c s ih =>
    rw [skipSpaces]
    by_cases hc : c = 0x20
    · rw [if_pos hc, List.drop_succ_cons]
      exact ih
    · rw [if_neg hc]
      exact hc

theorem skipSpaces_pos {s : List UInt8} (h : s.getD 0 0 = 0x20) : 0 < skipSpaces s := by
  cases s with
  | nil => exact absurd h (by decide)
  | cons c s =>
    rw [skipSpaces, if_pos (show c = 0x20 from h)]
    exact Nat.succ_pos _

theorem skipWord_word (s : List UInt8) : ∀ c ∈ s.take (skipWord s), c ≠ 0 ∧ c ≠ 0x20 := by
  induction s with
  | nil => exact fun c hc => absurd hc List.not_mem_nil
  | cons c s ih =>
    rw [skipWord]
    by_cases hc : c ≠ 0 ∧ c ≠ 0x20
    · rw [if_pos hc, List.take_succ_cons, List.forall_mem_cons]
      exact ⟨hc, ih⟩
    · rw [if_neg hc]
      exact fun c hc => absurd hc List.not_mem_nil

theorem skipWord_stop (s : List UInt8) :
    (s.drop (skipWord s)).getD 0 0 = 0 ∨ (s.drop (skipWord s)).getD 0 0 = 0x20 := by
  induction s with
  | nil => exact Or.inl rfl
  | cons c s ih =>
    rw [skipWord]
    by_cases hc : c ≠ 0 ∧ c ≠ 0x20
    · rw [if_pos hc, List.drop_succ_cons]
      exact ih
    · rw [if_neg hc]
      show c = 0 ∨ c = 0x20
      by_cases h0 : c = 0
      · exact Or.inl h0
      · exact Or.inr (not_not.mp fun h => hc ⟨h0, h⟩)

theorem skipWord_ne_nil {s : List UInt8} (h0 : s.getD 0 0 ≠ 0) (hspace : s.getD 0 0 ≠ 0x20) :
    s.take (skipWord s) ≠ [] := by
  cases s with
  | nil => exact absurd rfl h0
  | cons c s =>
    rw [skipWord, if_pos ⟨h0, hspace⟩, List.take_succ_cons]
    exact List.cons_ne_nil _ _

/-- `line` from its first word on. -/
def fromWord (line : List UInt8) : List UInt8 := line.drop (skipSpaces line)

/-- The first word. -/
def firstWord (line : List UInt8) : List UInt8 := (fromWord line).take (skipWord (fromWord line))

/-- `line` after its first word. -/
def afterWord (line : List UInt8) : List UInt8 := (fromWord line).drop (skipWord (fromWord line))

theorem firstWord_append_afterWord (line : List UInt8) : firstWord line ++ afterWord line = fromWord line :=
  List.take_append_drop _ _

theorem cstr_eq_nil {s : List UInt8} (h : s.getD 0 0 = 0) : cstr s = [] := by
  cases s with
  | nil => rfl
  | cons c s => rw [cstr_cons, if_pos (show c = 0 from h)]

theorem zero_notMem_firstWord (line : List UInt8) : 0 ∉ firstWord line :=
  fun hin => (skipWord_word _ 0 hin).1 rfl

theorem space_notMem_firstWord (line : List UInt8) : 0x20 ∉ firstWord line :=
  fun hin => (skipWord_word _ 0x20 hin).2 rfl

theorem cstr_eq_spaces (line : List UInt8) :
    cstr line = List.replicate (skipSpaces line) 0x20 ++ cstr (fromWord line) := by
  have hspaces : (0 : UInt8) ∉ List.replicate (skipSpaces line) 0x20 := by
    intro hin
    exact absurd (List.eq_of_mem_replicate hin) (by decide)
  rw [← cstr_append hspaces, fromWord, ← skipSpaces_eq]

theorem cstr_fromWord (line : List UInt8) : cstr (fromWord line) = firstWord line ++ cstr (afterWord line) := by
  rw [← cstr_append (zero_notMem_firstWord line), firstWord_append_afterWord]

theorem head_cstr_afterWord (line : List UInt8) : ∀ c ∈ (cstr (afterWord line)).head?, c = 0x20 := by
  intro c hc
  have hstop : (afterWord line).getD 0 0 = 0 ∨ (afterWord line).getD 0 0 = 0x20 := skipWord_stop _
  cases htail : afterWord line with
  | nil =>
    rw [htail] at hc
    exact absurd hc (by simp)
  | cons a s =>
    rw [htail] at hc hstop
    rw [cstr_cons] at hc
    rcases hstop with h0 | hspace
    · rw [if_pos (show a = 0 from h0)] at hc
      exact absurd hc (by simp)
    · rw [show a = 0x20 from hspace, if_neg (by decide)] at hc
      exact (Option.some.inj hc).symm

/-! ## Words of a line and of what is left of it -/

theorem words_fromWord (line : List UInt8) : words line = fields 0x20 (cstr (fromWord line)) := by
  rw [words, cstr_eq_spaces, fields_replicate_append]

theorem words_of_end {line : List UInt8} (h : (fromWord line).getD 0 0 = 0) : words line = [] := by
  rw [words_fromWord, cstr_eq_nil h]
  rfl

theorem words_of_word {line : List UInt8} (h : (fromWord line).getD 0 0 ≠ 0) :
    words line = firstWord line :: words (afterWord line) := by
  rw [words_fromWord, cstr_fromWord]
  exact fields_append (space_notMem_firstWord line) (skipWord_ne_nil h (skipSpaces_stop line))
    (head_cstr_afterWord line)

/-! ## The loop on a part of the line -/

theorem getD_append_length (pre s : List UInt8) (k : Nat) : (pre ++ s).getD (pre.length + k) 0 = s.getD k 0 := by
  rw [List.getD_eq_getElem?_getD, List.getD_eq_getElem?_getD, List.getElem?_append_right (by omega)]
  congr 2
  omega

theorem skipWord_le (s : List UInt8) : skipWord s ≤ s.length := by
  induction s with
  | nil => exact Nat.le_refl 0
  | cons c s ih =>
    rw [skipWord, List.length_cons]
    split
    · exact Nat.succ_le_succ ih
    · exact Nat.zero_le _

theorem length_firstWord (line : List UInt8) : (firstWord line).length = skipWord (fromWord line) :=
  List.length_take_of_le (skipWord_le _)

theorem skipSpaces_of_end {s : List UInt8} (h : s.getD 0 0 = 0) : skipSpaces s = 0 := by
  cases s with
  | nil => rfl
  | cons c s => rw [skipSpaces, if_neg (by rw [show c = 0 from h]; decide)]

-- A line with a word does not end where it begins.
theorem getD_ne_zero_of_word {s : List UInt8} (h : (fromWord s).getD 0 0 ≠ 0) : s.getD 0 0 ≠ 0 := by
  intro h0
  rw [fromWord, skipSpaces_of_end h0] at h
  exact h h0

/-- The spaces in front of the first word, cleared. -/
def cleared (s : List UInt8) : List UInt8 := List.replicate (skipSpaces s) 0

theorem length_cleared (s : List UInt8) : (cleared s).length = skipSpaces s := List.length_replicate

theorem clear_spaces (pre s : List UInt8) :
    (pre ++ s).take pre.length ++ List.replicate (skipSpaces s) 0 ++ (pre ++ s).drop (pre.length + skipSpaces s) =
      (pre ++ cleared s) ++ fromWord s := by
  rw [List.take_left, List.drop_length_add_append]
  rfl

theorem tokenizeLoop_end (left : Nat) (pre : List UInt8) {s : List UInt8} (h : (fromWord s).getD 0 0 = 0) :
    tokenizeLoop (left + 1) (pre ++ s) pre.length = (pre ++ cleared s ++ fromWord s, []) := by
  have hat := getD_append_length pre s 0
  have hword := getD_append_length (pre ++ cleared s) (fromWord s) 0
  rw [Nat.add_zero] at hat
  rw [Nat.add_zero, List.length_append, length_cleared] at hword
  rw [tokenizeLoop, hat]
  by_cases h0 : s.getD 0 0 = 0
  · have hn := skipSpaces_of_end h0
    rw [if_pos h0, cleared, fromWord, hn, List.replicate_zero, List.append_nil, List.drop_zero]
  · rw [if_neg h0, List.drop_left]
    dsimp only
    rw [clear_spaces, hword, if_pos h]

theorem tokenizeLoop_end_zero (left : Nat) {s : List UInt8} (h : (fromWord s).getD 0 0 = 0) :
    tokenizeLoop (left + 1) s 0 = (cleared s ++ fromWord s, []) :=
  tokenizeLoop_end left [] h

theorem tokenizeLoop_word (left : Nat) (pre : List UInt8) {s : List UInt8} (h : (fromWord s).getD 0 0 ≠ 0) :
    tokenizeLoop (left + 1) (pre ++ s) pre.length =
      ((tokenizeLoop left (pre ++ cleared s ++ firstWord s ++ afterWord s)
          (pre ++ cleared s ++ firstWord s).length).1,
        (pre ++ cleared s).length ::
          (tokenizeLoop left (pre ++ cleared s ++ firstWord s ++ afterWord s)
            (pre ++ cleared s ++ firstWord s).length).2) := by
  have hat := getD_append_length pre s 0
  have hword := getD_append_length (pre ++ cleared s) (fromWord s) 0
  have hdrop : (pre ++ cleared s ++ fromWord s).drop (pre ++ cleared s).length = fromWord s := List.drop_left
  have h0 := getD_ne_zero_of_word h
  rw [Nat.add_zero] at hat
  rw [Nat.add_zero, List.length_append, length_cleared] at hword
  rw [List.length_append, length_cleared] at hdrop
  rw [tokenizeLoop, hat, if_neg h0, List.drop_left]
  dsimp only
  rw [clear_spaces, hword, if_neg h, hdrop, List.append_assoc _ (firstWord s), firstWord_append_afterWord,
    List.length_append, List.length_append, length_cleared, length_firstWord]

/-- The loop does not touch what is in front of it. -/
theorem tokenizeLoop_append (left : Nat) (pre s : List UInt8) :
    tokenizeLoop left (pre ++ s) pre.length =
      (pre ++ (tokenizeLoop left s 0).1, (tokenizeLoop left s 0).2.map (pre.length + ·)) := by
  induction left generalizing pre s with
  | zero => rfl
  | succ left ih =>
    by_cases h : (fromWord s).getD 0 0 = 0
    · rw [tokenizeLoop_end left pre h, tokenizeLoop_end_zero left h, List.append_assoc]
      rfl
    · have hhere := tokenizeLoop_word left [] h
      rw [List.nil_append, List.nil_append, List.length_nil, ih] at hhere
      rw [tokenizeLoop_word left pre h, ih, hhere]
      simp [List.append_assoc, Nat.add_assoc]

theorem tokenizeLoop_word_zero (left : Nat) {s : List UInt8} (h : (fromWord s).getD 0 0 ≠ 0) :
    tokenizeLoop (left + 1) s 0 =
      (cleared s ++ firstWord s ++ (tokenizeLoop left (afterWord s) 0).1,
        (cleared s).length ::
          (tokenizeLoop left (afterWord s) 0).2.map ((cleared s ++ firstWord s).length + ·)) := by
  have hpass := tokenizeLoop_word left [] h
  rw [List.nil_append, List.nil_append, List.length_nil, tokenizeLoop_append] at hpass
  exact hpass

/-! ## The arguments -/

theorem tokenize_end (left : Nat) {s : List UInt8} (h : (fromWord s).getD 0 0 = 0) : tokenize s (left + 1) = [] := by
  rw [tokenize, tokenizeLoop_end_zero left h]
  rfl

/-- The first argument goes on to the end of the line unless the next pass ends it. -/
theorem tokenize_word (left : Nat) {s : List UInt8} (h : (fromWord s).getD 0 0 ≠ 0) :
    tokenize s (left + 1) =
      (firstWord s ++ (tokenizeLoop left (afterWord s) 0).1) :: tokenize (afterWord s) left := by
  rw [tokenize, tokenize, tokenizeLoop_word_zero left h, List.map_cons, List.map_map]
  congr 1
  · rw [List.append_assoc, List.drop_left]
  · apply List.map_congr_left
    intro p _
    exact List.drop_length_add_append p

theorem cstr_cleared {s : List UInt8} (h : 0 < skipSpaces s) (t : List UInt8) : cstr (cleared s ++ t) = [] := by
  obtain ⟨n, hn⟩ := Nat.exists_eq_succ_of_ne_zero (Nat.ne_of_gt h)
  rw [cleared, hn, List.replicate_succ, List.cons_append, cstr_cons, if_pos rfl]

-- What is left of the line begins with a NUL after the next pass, whatever it began with.
theorem cstr_tokenizeLoop (left : Nat) (s : List UInt8) :
    cstr (tokenizeLoop (left + 1) (afterWord s) 0).1 = [] := by
  have hstop : (afterWord s).getD 0 0 = 0 ∨ (afterWord s).getD 0 0 = 0x20 := skipWord_stop _
  by_cases h : (fromWord (afterWord s)).getD 0 0 = 0
  · rw [tokenizeLoop_end_zero left h]
    rcases hstop with h0 | hspace
    · rw [cleared, skipSpaces_of_end h0, List.replicate_zero, List.nil_append, cstr_eq_nil h]
    · exact cstr_cleared (skipSpaces_pos hspace) _
  · have hspace := hstop.resolve_left (getD_ne_zero_of_word h)
    rw [tokenizeLoop_word_zero left h, List.append_assoc]
    exact cstr_cleared (skipSpaces_pos hspace) _

theorem cstr_firstArgument (left : Nat) (s : List UInt8) :
    cstr (firstWord s ++ (tokenizeLoop left (afterWord s) 0).1) =
      firstWord s ++ if left = 0 then cstr (afterWord s) else [] := by
  rw [cstr_append (zero_notMem_firstWord s)]
  cases left with
  | zero => rfl
  | succ left => rw [cstr_tokenizeLoop, if_neg (Nat.succ_ne_zero left)]

theorem length_tokenize (max : Nat) (line : List UInt8) :
    (tokenize line max).length = min max (words line).length := by
  induction max generalizing line with
  | zero => exact (Nat.zero_min _).symm
  | succ left ih =>
    by_cases h : (fromWord line).getD 0 0 = 0
    · rw [tokenize_end left h, words_of_end h]
      rfl
    · rw [tokenize_word left h, words_of_word h, List.length_cons, List.length_cons, ih, Nat.succ_min_succ]

/-! ## Words and arguments -/

/-- Each argument of `args` is the word of its number. -/
def AreWords (args ws : List (List UInt8)) : Prop :=
  ∀ (i : Nat) (arg : List UInt8), args[i]? = some arg → ws[i]? = some (cstr arg)

theorem areWords_nil (ws : List (List UInt8)) : AreWords [] ws := by
  intro i arg harg
  rw [List.getElem?_nil] at harg
  exact absurd harg (by simp)

theorem areWords_cons {arg : List UInt8} {args : List (List UInt8)} {w : List UInt8} {ws : List (List UInt8)} :
    AreWords (arg :: args) (w :: ws) ↔ cstr arg = w ∧ AreWords args ws := by
  constructor
  · intro h
    have hfirst := h 0 arg rfl
    exact ⟨(Option.some.inj hfirst).symm, fun i a ha => h (i + 1) a ha⟩
  · rintro ⟨rfl, h⟩ i a ha
    cases i with
    | zero =>
      rw [← Option.some.inj ha]
      rfl
    | succ i => exact h i a ha

/-- The words of the line leave room for another argument, or are as many as there is room for and end the line. -/
def EndsWithRoom (line : List UInt8) (max : Nat) : Prop :=
  (words line).length < max ∨ ((words line).length = max ∧ (cstr line).getLast? ≠ some 0x20)

-- The end of a line with a word is that of the word or what comes after it.
theorem getLast_cstr {line : List UInt8} (h : (fromWord line).getD 0 0 ≠ 0) :
    (cstr line).getLast? = ((cstr (afterWord line)).getLast?).or (firstWord line).getLast? := by
  have hne : firstWord line ++ cstr (afterWord line) ≠ [] :=
    List.append_ne_nil_of_left_ne_nil (skipWord_ne_nil h (skipSpaces_stop line)) _
  rw [cstr_eq_spaces, cstr_fromWord, List.getLast?_append, List.getLast?_append]
  cases hlast : ((cstr (afterWord line)).getLast?).or (firstWord line).getLast? with
  | some c => rfl
  | none =>
    rw [← List.getLast?_append, List.getLast?_eq_none_iff] at hlast
    exact absurd hlast hne

theorem firstWord_getLast_ne_space (line : List UInt8) : (firstWord line).getLast? ≠ some 0x20 :=
  fun hlast => space_notMem_firstWord line (List.mem_of_getLast? hlast)

-- With room for one argument only, it is the rest of the line.
theorem endsWithRoom_one {line : List UInt8} (h : (fromWord line).getD 0 0 ≠ 0) :
    EndsWithRoom line 1 ↔ cstr (afterWord line) = [] := by
  unfold EndsWithRoom
  rw [words_of_word h, getLast_cstr h, List.length_cons]
  constructor
  · rintro (hlt | ⟨hlen, hlast⟩)
    · omega
    · have hspaces := fields_eq_nil_iff.mp (List.length_eq_zero_iff.mp (Nat.succ.inj hlen))
      by_contra hne
      apply hlast
      have hmem := List.getLast_mem hne
      rw [List.getLast?_eq_some_getLast hne, hspaces _ hmem]
      rfl
  · intro hnil
    right
    rw [words, hnil]
    exact ⟨rfl, firstWord_getLast_ne_space line⟩

theorem endsWithRoom_succ {line : List UInt8} (h : (fromWord line).getD 0 0 ≠ 0) (left : Nat) :
    EndsWithRoom line (left + 2) ↔ EndsWithRoom (afterWord line) (left + 1) := by
  unfold EndsWithRoom
  rw [words_of_word h, getLast_cstr h, List.length_cons]
  apply or_congr
  · omega
  · have hlen : (words (afterWord line)).length + 1 = left + 2 ↔ (words (afterWord line)).length = left + 1 := by
      omega
    rw [hlen]
    apply and_congr_right
    intro hmore
    have hne : cstr (afterWord line) ≠ [] := by
      intro hnil
      rw [words, hnil] at hmore
      exact absurd hmore (by simp [fields])
    rw [List.getLast?_eq_some_getLast hne]
    rfl

theorem areWords_tokenize (left : Nat) (line : List UInt8) :
    AreWords (tokenize line (left + 1)) (words line) ↔ EndsWithRoom line (left + 1) := by
  induction left generalizing line with
  | zero =>
    by_cases h : (fromWord line).getD 0 0 = 0
    · rw [tokenize_end 0 h]
      exact ⟨fun _ => Or.inl (by rw [words_of_end h]; decide), fun _ => areWords_nil _⟩
    · rw [tokenize_word 0 h, words_of_word h, areWords_cons, cstr_firstArgument, if_pos rfl, endsWithRoom_one h,
        List.append_right_eq_self]
      exact ⟨fun hsplit => hsplit.1, fun hnil => ⟨hnil, areWords_nil _⟩⟩
  | succ left ih =>
    by_cases h : (fromWord line).getD 0 0 = 0
    · rw [tokenize_end (left + 1) h]
      exact ⟨fun _ => Or.inl (by rw [words_of_end h]; exact Nat.succ_pos _), fun _ => areWords_nil _⟩
    · rw [tokenize_word (left + 1) h, words_of_word h, areWords_cons, cstr_firstArgument,
        if_neg (Nat.succ_ne_zero left), List.append_nil, endsWithRoom_succ h, ← ih]
      exact ⟨fun hsplit => hsplit.2, fun hrest => ⟨rfl, hrest⟩⟩

/-- `argc` is the number of words, as far as there is room for them, and each argument is the word of its
number. -/
def SplitsWords (line : List UInt8) (max : Nat) : Prop :=
  (tokenize line max).length = min max (words line).length ∧ AreWords (tokenize line max) (words line)

/-- `tokenize` with its 16 arguments splits a line into words exactly if the line has fewer words, or has 16 and no
space after them. -/
theorem splitsWords_iff (line : List UInt8) :
    SplitsWords line 16 ↔
      (words line).length < 16 ∨ ((words line).length = 16 ∧ (cstr line).getLast? ≠ some 0x20) := by
  unfold SplitsWords
  rw [areWords_tokenize 15]
  exact ⟨fun h => h.2, fun h => ⟨length_tokenize 16 line, h⟩⟩

-- The sixteenth argument of this line is `> f`: there is no redirection.
theorem not_splitsWords_redirection :
    ¬ SplitsWords (ascii "echo 1 2 3 4 5 6 7 8 9 10 11 12 13 14 > f") 16 := by
  have harg : (tokenize (ascii "echo 1 2 3 4 5 6 7 8 9 10 11 12 13 14 > f") 16)[15]? = some (ascii "> f") := by
    decide
  have hword : (words (ascii "echo 1 2 3 4 5 6 7 8 9 10 11 12 13 14 > f"))[15]? = some (ascii ">") := by
    decide
  intro hsplits
  have heq := hsplits.2 15 _ harg
  rw [hword] at heq
  exact absurd heq (by decide)

end JacobOS.Shell
