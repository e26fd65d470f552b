import Oxplow.Library.Runs
import Oxplow.Proofs.SmartMerge

/-! The words of a merged text. The merge joins tokens of the revisions as
text, so words of different revisions that come to stand side by side fuse. -/

namespace Oxplow.Proofs.MergeWords
open Library Library.Edits Oxplow.SmartMerge Proofs.SmartMerge

variable (classes : CharClasses)

def isWordToken (token : List Char) : Bool := token.all (isWord classes)

/-- The word tokens of a text. -/
def wordTokens (text : List Char) : List (List Char) := (tokenize classes text).filter (isWordToken classes)

/-- A word one of the three revisions has. -/
def Known (base ours theirs word : List Char) : Prop :=
  word ∈ wordTokens classes base ∨ word ∈ wordTokens classes ours ∨ word ∈ wordTokens classes theirs

theorem isWord_of_isWhitespace {c : Char} (space : classes.isWhitespace c = true) : isWord classes c = false := by
  have letter := classes.apart c space
  have other : c ≠ '_' := by
    rintro rfl
    simp [classes.underscore] at space
  simp [isWord, letter, other]

theorem isWord_of_isBlank {c : Char} (blank : isBlank classes c = true) : isWord classes c = false := by
  have space := (Bool.and_eq_true _ _ ▸ blank : _ ∧ _).2
  exact isWord_of_isWhitespace classes space

/-- The word tokens of a text are its maximal runs of word characters. -/
theorem wordTokens_eq_runs (text : List Char) : wordTokens classes text = runs (isWord classes) text := by
  induction text using tokenize.induct classes with
  | case1 => simp [wordTokens, tokenize]
  | case2 rest ih =>
    have plain := isWord_of_isWhitespace classes classes.newline
    unfold wordTokens at ih ⊢
    rw [tokenize, if_pos rfl, runs_cons, if_neg (by simp [plain]), ← ih]
    simp [isWordToken, plain]
  | case3 c rest newline word ih =>
    unfold wordTokens at ih ⊢
    rw [tokenize, if_neg newline, if_pos word, runs_cons, if_pos word, ← ih]
    have whole : isWordToken classes (c :: rest.takeWhile (isWord classes)) = true := by
      simp [isWordToken, word]
    rw [List.filter_cons_of_pos whole]
  | case4 c rest newline word blank ih =>
    unfold wordTokens at ih ⊢
    rw [tokenize, if_neg newline, if_neg word, if_pos blank, runs_cons, if_neg word,
      ← runs_dropWhile (fun a => isWord_of_isBlank classes) rest, ← ih]
    simp [isWordToken, word]
  | case5 c rest newline word blank ih =>
    unfold wordTokens at ih ⊢
    rw [tokenize, if_neg newline, if_neg word, if_neg blank, runs_cons, if_neg word, ← ih]
    simp [isWordToken, word]

/-- A token is a word or has no word character. -/
theorem tokens_uniform (text : List Char) : Uniform (isWord classes) (tokenize classes text) := by
  have alone : ∀ c, [c] ≠ [] ∧ ((∀ a ∈ [c], isWord classes a = true) ∨ ∀ a ∈ [c], isWord classes a = false) := by
    intro c
    refine ⟨by simp, ?_⟩
    cases word : isWord classes c <;> simp [word]
  induction text using tokenize.induct classes with
  | case1 => simp [tokenize, Uniform]
  | case2 rest ih =>
    rw [tokenize, if_pos rfl]
    intro token member
    rcases List.mem_cons.mp member with rfl | member
    · exact alone _
    · exact ih token member
  | case3 c rest newline word ih =>
    rw [tokenize, if_neg newline, if_pos word]
    intro token member
    rcases List.mem_cons.mp member with rfl | member
    · refine ⟨by simp, .inl ?_⟩
      simpa [word] using List.all_eq_true.mp (List.all_takeWhile (l := rest) (p := isWord classes))
    · exact ih token member
  | case4 c rest newline word blank ih =>
    rw [tokenize, if_neg newline, if_neg word, if_pos blank]
    intro token member
    rcases List.mem_cons.mp member with rfl | member
    · refine ⟨by simp, .inr ?_⟩
      intro a inside
      rcases List.mem_cons.mp inside with rfl | inside
      · exact isWord_of_isWhitespace classes blank
      · have blanks := List.all_eq_true.mp (List.all_takeWhile (l := rest) (p := isBlank classes))
        exact isWord_of_isBlank classes (blanks a inside)
    · exact ih token member
  | case5 c rest newline word blank ih =>
    rw [tokenize, if_neg newline, if_neg word, if_neg blank]
    intro token member
    rcases List.mem_cons.mp member with rfl | member
    · exact alone _
    · exact ih token member

/-! ## Fused words -/

/-- The words that fuse where two or more word tokens of different pieces come
to stand side by side, once each piece has the text of the side that changed it. -/
def fusedWords (pieces : List (Chunk (List Char))) : List (List Char) :=
  ((runs (isWordToken classes) (pieces.flatMap Chunk.text)).filter (2 ≤ ·.length)).map List.flatten

/-- A piece's text has only tokens of the two sides. -/
theorem mem_text_of_cut {pieces : List (Chunk (List Char))} {ours theirs token : List Char}
    (oursCut : pieces.flatMap Chunk.ours = tokenize classes ours)
    (theirsCut : pieces.flatMap Chunk.theirs = tokenize classes theirs)
    (member : token ∈ pieces.flatMap Chunk.text) : token ∈ tokenize classes ours ∨ token ∈ tokenize classes theirs := by
  obtain ⟨piece, inside, found⟩ := List.mem_flatMap.mp member
  rcases piece.text_of_side with side | side
  · left
    rw [← oursCut]
    exact List.mem_flatMap.mpr ⟨piece, inside, side ▸ found⟩
  · right
    rw [← theirsCut]
    exact List.mem_flatMap.mpr ⟨piece, inside, side ▸ found⟩

/-- The word tokens of the joined pieces are known when the fused words are: a
word token standing alone is a token of one of the sides. -/
theorem joined_known_iff {pieces : List (Chunk (List Char))} {base ours theirs : List Char}
    (oursCut : pieces.flatMap Chunk.ours = tokenize classes ours)
    (theirsCut : pieces.flatMap Chunk.theirs = tokenize classes theirs) :
    (∀ word ∈ wordTokens classes (pieces.flatMap Chunk.text).flatten, Known classes base ours theirs word) ↔
      ∀ word ∈ fusedWords classes pieces, Known classes base ours theirs word := by
  have uniform : Uniform (isWord classes) (pieces.flatMap Chunk.text) := by
    intro token member
    rcases mem_text_of_cut classes oursCut theirsCut member with found | found
    · exact tokens_uniform classes ours token found
    · exact tokens_uniform classes theirs token found
  rw [wordTokens_eq_runs, runs_flatten uniform]
  constructor
  · intro known word member
    obtain ⟨run, found, rfl⟩ := List.mem_map.mp member
    exact known _ (List.mem_map.mpr ⟨run, (List.mem_filter.mp found).1, rfl⟩)
  · intro known word member
    obtain ⟨run, found, rfl⟩ := List.mem_map.mp member
    by_cases long : 2 ≤ run.length
    · exact known _ (List.mem_map.mpr ⟨run, List.mem_filter.mpr ⟨found, by simpa using long⟩, rfl⟩)
    · obtain ⟨occupied, words⟩ := run_of_mem_runs found
      have single : run.length = 1 := by
        have size := List.length_pos_iff.mpr occupied
        omega
      obtain ⟨token, rfl⟩ := List.length_eq_one_iff.mp single
      have source := mem_of_mem_runs found token (by simp)
      have isToken := words token (by simp)
      rw [List.flatten_singleton]
      rcases mem_text_of_cut classes oursCut theirsCut source with side | side
      · exact .inr (.inl (List.mem_filter.mpr ⟨side, isToken⟩))
      · exact .inr (.inr (List.mem_filter.mpr ⟨side, isToken⟩))

/-- The classes of the ASCII characters. -/
def ascii : CharClasses where
  isAlphanumeric := Char.isAlphanum
  isWhitespace := Char.isWhitespace
  apart := by
    intro c space
    simp only [Char.isWhitespace, Bool.or_eq_true, decide_eq_true_eq] at space
    rcases space with ((rfl | rfl) | rfl) | rfl <;> rfl
  newline := rfl
  underscore := rfl

private theorem tokens_base : tokenize ascii ['+', '-'] = [['+'], ['-']] := by
  simp [tokenize, isWord, ascii]

private theorem tokens_ours : tokenize ascii ['+', 'w', '-'] = [['+'], ['w'], ['-']] := by
  simp [tokenize, isWord, ascii]

private theorem tokens_theirs : tokenize ascii ['+', 'v'] = [['+'], ['v']] := by
  simp [tokenize, isWord, ascii]

private theorem tokens_plus : tokenize ascii ['+'] = [['+']] := by
  simp [tokenize, isWord, ascii]

private theorem tokens_merged : tokenize ascii ['+', 'w', 'v'] = [['+'], ['w', 'v']] := by
  simp [tokenize, isWord, ascii]

end Oxplow.Proofs.MergeWords
