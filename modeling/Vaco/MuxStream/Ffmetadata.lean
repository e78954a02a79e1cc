import Vaco.Core.Escape
import Vaco.Library.FixedWidth

/-!
# Metadata documents

A document is a list of lines: pairs of a key and a value, and the headers of streams and chapters.
The writer puts a backslash before every character with a meaning, a line break included, so that a
value may go on over several lines.  The reader joins lines by the parity of the backslashes at their
end, and only then looks for comments, headers and the sign between key and value.

Main results:

- `splitLines_lines`: escaped lines are found again.
- `parse_write`: a document is read back.
-/

namespace Vaco
namespace MuxStream

open Library
open Vaco.Core.Escape (Str backslash quote isSpecial escape)

namespace Ffmetadata

/-- The line break. -/
def newline : Char :=
  '\n'

/-- The first line of a document. -/
def HEADER_LINE : Str :=
  ";FFMETADATA1".toList

/-- The value of the last global pair. -/
def ENCODER_TAG : Str :=
  "vaco".toList

/-- The characters escaped beside the backslash and the quote. -/
def SPECIAL : Str :=
  "=;#".toList

/-! ## Escaping -/

/-- Escape a text without line breaks. -/
def escapeFlat (s : Str) : Str :=
  escape s SPECIAL .backslash

/-- Escape a text, with a backslash before each line break. -/
def escapeValue (s : Str) : Str :=
  if s.contains newline then
    [backslash, newline].intercalate ((s.splitOn newline).map escapeFlat)
  else
    escapeFlat s

/-- Drop each backslash and keep the character behind it. -/
def unescape : Str → Str
  | [] => []
  | c :: rest =>
      if c = backslash then
        match rest with
        | [] => []
        | n :: rest => n :: unescape rest
      else
        c :: unescape rest

/-- The loop of finding the first separator that is not escaped. -/
def splitOnceFrom (sep : Char) : Str → Str → Option (Str × Str)
  | _, [] => none
  | piece, c :: rest =>
      if c = backslash then
        match rest with
        | [] => none
        | n :: rest => splitOnceFrom sep (piece ++ [c, n]) rest
      else if c = sep then
        some (unescape piece, unescape rest)
      else
        splitOnceFrom sep (piece ++ [c]) rest

/-- The parts around the first separator that is not escaped. -/
def splitOnceUnescaped (s : Str) (sep : Char) : Option (Str × Str) :=
  splitOnceFrom sep [] s

/-! ## Reading -/

/-- A key and its value. -/
abbrev Pair : Type :=
  Str × Str

/-- Global pairs, and the pairs of every section in order. -/
structure ParsedMetadata where
  global : List Pair
  streams : List (List Pair)
  chapters : List (List Pair)
deriving DecidableEq

/-- The section that pairs belong to. -/
inductive Section where
  | global
  | stream (i : Nat)
  | chapter (i : Nat)

/-- Whether a line ends in an unpaired backslash. -/
def isContinued (line : Str) : Bool :=
  (line.reverse.takeWhile (· == backslash)).length % 2 == 1

/-- The loop of joining lines. -/
def joinLines (out : List Str) (cont : Bool) : List Str → List Str
  | [] => out
  | raw :: raws =>
      match cont, out.getLast? with
      | true, some last =>
          let line := last ++ newline :: raw
          joinLines (out.dropLast ++ [line]) (isContinued line) raws
      | _, _ => joinLines (out ++ [raw]) (isContinued raw) raws

/-- The lines of a text, joined where a line break is escaped. -/
def splitLines (input : Str) : List Str :=
  joinLines [] false (input.splitOn newline)

def headerName (line : Str) : Option Str :=
  match line with
  | '[' :: rest => if rest.getLast? = some ']' then some rest.dropLast else none
  | _ => none

/-- Open the section of a header. -/
def openSection (out : ParsedMetadata) (name : Str) : ParsedMetadata × Section :=
  if name = "STREAM".toList then
    ({ out with streams := out.streams ++ [[]] }, .stream out.streams.length)
  else if name = "CHAPTER".toList then
    ({ out with chapters := out.chapters ++ [[]] }, .chapter out.chapters.length)
  else
    (out, .global)

/-- Put a pair into a section. -/
def addPair (out : ParsedMetadata) (pair : Pair) : Section → ParsedMetadata
  | .global => { out with global := out.global ++ [pair] }
  | .stream i => { out with streams := out.streams.modify i (· ++ [pair]) }
  | .chapter i => { out with chapters := out.chapters.modify i (· ++ [pair]) }

/-- Take one line. -/
def parseLine (state : ParsedMetadata × Section) (line : Str) : ParsedMetadata × Section :=
  if line.head? = some ';' ∨ line.head? = some '#' then state
  else
    match headerName line with
    | some name => openSection state.1 name
    | none =>
        match splitOnceUnescaped line '=' with
        | none => state
        | some pair => (addPair state.1 pair state.2, state.2)

/-- Read a document. -/
def parse (input : Str) : ParsedMetadata :=
  ((splitLines input).foldl parseLine (⟨[], [], []⟩, .global)).1

/-! ## Writing -/

/-- A chapter to write. -/
structure ChapterMeta where
  timeBase : I32 × I32
  start : I64
  «end» : I64
  metadata : List Pair

/-- The decimal digits of an integer. -/
def display (n : Int) : Str :=
  if n < 0 then '-' :: Nat.toDigits 10 n.natAbs else Nat.toDigits 10 n.natAbs

/-- A pair as a line. -/
def writeKv (pair : Pair) : Str :=
  let escapedKey := escapeValue pair.1
  let key := if escapedKey.head? = some '[' then backslash :: escapedKey else escapedKey
  key ++ '=' :: escapeValue pair.2 ++ [newline]

/-- A chapter as lines. -/
def writeChapter (chapter : ChapterMeta) : Str :=
  "[CHAPTER]\n".toList ++
    ("TIMEBASE=".toList ++ display chapter.timeBase.1.val ++ '/' ::
      display chapter.timeBase.2.val ++ [newline]) ++
    ("START=".toList ++ display chapter.start.val ++ [newline]) ++
    ("END=".toList ++ display chapter.end.val ++ [newline]) ++
    chapter.metadata.flatMap writeKv

/-- Write a document. -/
def write (global : List Pair) (streams : List (List Pair)) (chapters : List ChapterMeta) : Str :=
  HEADER_LINE ++ [newline] ++
    (global.filter fun pair => pair.1 ≠ "encoder".toList).flatMap writeKv ++
    writeKv ("encoder".toList, ENCODER_TAG) ++
    streams.flatMap (fun stream => "[STREAM]\n".toList ++ stream.flatMap writeKv) ++
    chapters.flatMap writeChapter

/-! ## Closed texts -/

/-- A text in which no character of a set stands without a backslash, and no backslash is left over
at the end. -/
inductive Closed (stops : Str) : Str → Prop where
  | nil : Closed stops []
  | plain {c rest} : c ≠ backslash → c ∉ stops → Closed stops rest → Closed stops (c :: rest)
  | pair {n rest} : Closed stops rest → Closed stops (backslash :: n :: rest)

variable {stops s line key value rest : Str} {out : List Str} {sep c : Char}

theorem Closed.append (h : Closed stops s) (hrest : Closed stops rest) :
    Closed stops (s ++ rest) := by
  induction h with
  | nil => exact hrest
  | plain hc hstop _ ih => exact .plain hc hstop ih
  | pair _ ih => exact .pair ih

theorem Closed.mono {fewer : Str} (h : Closed stops s) (hsub : fewer ⊆ stops) :
    Closed fewer s := by
  induction h with
  | nil => exact .nil
  | plain hc hstop _ ih => exact .plain hc (fun hmem => hstop (hsub hmem)) ih
  | pair _ ih => exact .pair ih

theorem closed_of_forall (h : ∀ c ∈ s, c ≠ backslash ∧ c ∉ stops) : Closed stops s := by
  induction s with
  | nil => exact .nil
  | cons c s ih =>
      have hc := h c List.mem_cons_self
      exact .plain hc.1 hc.2 (ih fun other hmem => h other (List.mem_cons_of_mem c hmem))

theorem unescape_cons :
    unescape (c :: rest) =
      if c = backslash then
        match rest with
        | [] => []
        | n :: rest => n :: unescape rest
      else c :: unescape rest := by
  cases rest <;> rfl

theorem splitOnceFrom_cons (piece : Str) :
    splitOnceFrom sep piece (c :: rest) =
      if c = backslash then
        match rest with
        | [] => none
        | n :: rest => splitOnceFrom sep (piece ++ [c, n]) rest
      else if c = sep then some (unescape piece, unescape rest)
      else splitOnceFrom sep (piece ++ [c]) rest := by
  cases rest <;> rfl

@[simp]
theorem unescape_pair (n : Char) (rest : Str) :
    unescape (backslash :: n :: rest) = n :: unescape rest := by
  simp [unescape]

theorem unescape_plain (hc : c ≠ backslash) : unescape (c :: rest) = c :: unescape rest := by
  rw [unescape_cons, if_neg hc]

theorem unescape_append (h : Closed stops s) (rest : Str) :
    unescape (s ++ rest) = unescape s ++ unescape rest := by
  induction h with
  | nil => rfl
  | plain hc _ _ ih => rw [List.cons_append, unescape_plain hc, unescape_plain hc, ih]; rfl
  | pair _ ih => simp [ih]

theorem splitOnceFrom_closed (h : Closed stops key) (hsep : sep ∈ stops) (hback : sep ≠ backslash)
    (piece : Str) :
    splitOnceFrom sep piece (key ++ sep :: value) =
      some (unescape (piece ++ key), unescape value) := by
  induction h generalizing piece with
  | nil => rw [List.nil_append, splitOnceFrom_cons, if_neg hback, if_pos rfl, List.append_nil]
  | plain hc hstop _ ih =>
      rename_i c rest _
      have hne : c ≠ sep := fun heq => hstop (heq ▸ hsep)
      rw [List.cons_append, splitOnceFrom_cons, if_neg hc, if_neg hne, ih, List.append_assoc]
      rfl
  | pair _ ih =>
      rw [List.cons_append, List.cons_append, splitOnceFrom_cons, if_pos rfl]
      dsimp only
      rw [ih, List.append_assoc]
      rfl

/-! ## What is escaped -/

/-- A character as it is written. -/
def mark (c : Char) : Str :=
  if isSpecial SPECIAL c || c == newline then [backslash, c] else [c]

/-- A text is written character by character. -/
theorem escapeValue_eq (s : Str) : escapeValue s = s.flatMap mark := by
  have hflat : ∀ t : Str, newline ∉ t → escapeFlat t = t.flatMap mark := by
    intro t ht
    refine List.flatMap_congr fun c hc => ?_
    have hne : (c == newline) = false := beq_eq_false_iff_ne.2 fun heq => ht (heq ▸ hc)
    rw [mark, hne, Bool.or_false]
  have hjoin : [backslash, newline].intercalate ((s.splitOn newline).map escapeFlat) =
      s.flatMap mark := by
    induction s with
    | nil => rfl
    | cons c s ih =>
        rcases hpieces : s.splitOn newline with - | ⟨piece, pieces⟩
        · exact absurd hpieces (List.splitOn_ne_nil _ _)
        rw [hpieces] at ih
        rw [List.splitOn_cons_eq_if_modifyHead, hpieces, List.flatMap_cons, ← ih]
        by_cases hc : c = newline
        · subst hc
          simp [mark, escapeFlat, escape]
        · have hmark : mark c = if isSpecial SPECIAL c then [backslash, c] else [c] := by
            simp [mark, hc]
          rw [if_neg (by simpa using hc), hmark]
          cases pieces <;> cases hspecial : isSpecial SPECIAL c <;>
            simp [escapeFlat, escape, hspecial]
  unfold escapeValue
  split
  · exact hjoin
  · rename_i hno
    exact hflat s (by simpa using hno)

theorem closed_mark (c : Char) : Closed [newline, '='] (mark c) := by
  unfold mark
  split
  · exact .pair .nil
  · rename_i hno
    have hplain : ∀ d, isSpecial SPECIAL d = true ∨ d = newline → c ≠ d := by
      rintro d hd rfl
      simp only [Bool.or_eq_true, beq_iff_eq] at hno
      exact hno hd
    refine .plain (hplain _ (Or.inl (by decide))) ?_ .nil
    simp only [List.mem_cons, List.not_mem_nil, or_false, not_or]
    exact ⟨hplain _ (Or.inr rfl), hplain _ (Or.inl (by decide))⟩

theorem closed_escapeValue (s : Str) : Closed [newline, '='] (escapeValue s) := by
  rw [escapeValue_eq]
  induction s with
  | nil => exact .nil
  | cons c s ih => exact (closed_mark c).append ih

theorem unescape_mark (c : Char) : unescape (mark c) = [c] := by
  unfold mark
  split
  · rfl
  · rename_i hno
    have hc : c ≠ backslash := by
      rintro rfl
      exact hno (by decide)
    rw [unescape_plain hc]
    rfl

theorem unescape_escapeValue (s : Str) : unescape (escapeValue s) = s := by
  rw [escapeValue_eq]
  induction s with
  | nil => rfl
  | cons c s ih =>
      rw [List.flatMap_cons, unescape_append (closed_mark c), unescape_mark, ih]
      rfl

theorem head_escapeValue (s : Str) :
    (escapeValue s).head? ≠ some ';' ∧ (escapeValue s).head? ≠ some '#' := by
  rw [escapeValue_eq]
  cases s with
  | nil => exact ⟨by simp, by simp⟩
  | cons c s =>
      rw [List.flatMap_cons, mark]
      split
      · exact ⟨by simp [backslash], by simp [backslash]⟩
      · rename_i hno
        constructor
        · intro hhead
          rw [show c = ';' by simpa using hhead] at hno
          exact hno (by decide)
        · intro hhead
          rw [show c = '#' by simpa using hhead] at hno
          exact hno (by decide)

/-! ## Lines -/

theorem isContinued_concat (s : Str) (c : Char) :
    isContinued (s ++ [c]) = if c = backslash then !isContinued s else false := by
  simp only [isContinued, List.reverse_append, List.reverse_singleton, List.singleton_append,
    List.takeWhile_cons, beq_iff_eq]
  split
  · rw [List.length_cons]
    rcases Nat.mod_two_eq_zero_or_one (s.reverse.takeWhile (· == backslash)).length with h | h
    · rw [h, show ((s.reverse.takeWhile (· == backslash)).length + 1) % 2 = 1 by omega]
      rfl
    · rw [h, show ((s.reverse.takeWhile (· == backslash)).length + 1) % 2 = 0 by omega]
      rfl
  · rfl

/-- The lines of a text behind a line that has begun. -/
def linesFrom (out : List Str) (line : Str) : Str → List Str
  | [] => out ++ [line]
  | c :: rest =>
      if c = newline ∧ isContinued line = false then linesFrom (out ++ [line]) [] rest
      else linesFrom out (line ++ [c]) rest

/-- Joining pieces is the same as reading by characters. -/
theorem joinLines_eq (out : List Str) (line input piece : Str) (pieces : List Str)
    (h : input.splitOn newline = piece :: pieces) :
    joinLines (out ++ [line ++ piece]) (isContinued (line ++ piece)) pieces =
      linesFrom out line input := by
  induction input generalizing out line piece pieces with
  | nil =>
      cases h
      simp [joinLines, linesFrom]
  | cons c input ih =>
      rcases hlater : input.splitOn newline with - | ⟨next, later⟩
      · exact absurd hlater (List.splitOn_ne_nil _ _)
      rw [List.splitOn_cons_eq_if_modifyHead, hlater] at h
      rw [linesFrom]
      by_cases hc : c = newline
      · subst hc
        rw [if_pos (beq_self_eq_true _)] at h
        cases h
        cases hcont : isContinued line with
        | false =>
            have hread := ih (out ++ [line]) [] next later hlater
            simpa [joinLines, hcont] using hread
        | true =>
            have hread := ih out (line ++ [newline]) next later hlater
            simpa [joinLines, hcont] using hread
      · rw [if_neg (by simpa using hc)] at h
        cases h
        rw [if_neg fun hboth => hc hboth.1]
        have hread := ih out (line ++ [c]) next pieces hlater
        simpa using hread

/-- A closed line ends at the line break behind it. -/
theorem linesFrom_closed (h : Closed [newline] s) (hline : isContinued line = false) :
    linesFrom out line (s ++ newline :: rest) = linesFrom (out ++ [line ++ s]) [] rest := by
  induction h generalizing line with
  | nil => simp [linesFrom, hline]
  | plain hc hstop _ ih =>
      rename_i c s _
      have hne : c ≠ newline := by simpa using hstop
      have hnext : isContinued (line ++ [c]) = false := by rw [isContinued_concat, if_neg hc]
      rw [List.cons_append, linesFrom, if_neg fun hboth => hne hboth.1, ih hnext,
        List.append_assoc]
      rfl
  | pair _ ih =>
      rename_i n s _
      have hopen : isContinued (line ++ [backslash]) = true := by
        rw [isContinued_concat, if_pos rfl, hline]
        rfl
      have hnext : isContinued (line ++ [backslash] ++ [n]) = false := by
        rw [isContinued_concat, hopen]
        split <;> rfl
      rw [List.cons_append, List.cons_append, linesFrom,
        if_neg fun hboth => absurd hboth.1 (by decide),
        linesFrom, if_neg fun hboth => by simp [hopen] at hboth, ih hnext]
      simp

/-- Lines in which every break is escaped are found again. -/
theorem splitLines_lines {lines : List Str} (h : ∀ line ∈ lines, Closed [newline] line) :
    splitLines (lines.flatMap (· ++ [newline])) = lines ++ [[]] := by
  have hall : ∀ out, linesFrom out [] (lines.flatMap (· ++ [newline])) = out ++ lines ++ [[]] := by
    induction lines with
    | nil =>
        intro out
        simp [linesFrom]
    | cons line lines ih =>
        intro out
        have hline := h line List.mem_cons_self
        rw [List.flatMap_cons, List.append_assoc, List.singleton_append,
          linesFrom_closed hline rfl, ih fun other hmem => h other (List.mem_cons_of_mem line hmem)]
        simp
  have hread := hall []
  rcases hpieces : (lines.flatMap (· ++ [newline])).splitOn newline with - | ⟨piece, pieces⟩
  · exact absurd hpieces (List.splitOn_ne_nil _ _)
  rw [← joinLines_eq _ _ _ piece pieces hpieces] at hread
  rw [splitLines, hpieces]
  simpa [joinLines] using hread

/-! ## The line of a pair -/

/-- A pair as a line, without the line break. -/
def pairLine (pair : Pair) : Str :=
  let escapedKey := escapeValue pair.1
  let key := if escapedKey.head? = some '[' then backslash :: escapedKey else escapedKey
  key ++ '=' :: escapeValue pair.2

theorem writeKv_eq : writeKv = fun pair => pairLine pair ++ [newline] :=
  rfl

/-- What the reader makes of a line that begins with a closed key. -/
theorem parseLine_pair (hkey : Closed [newline, '='] key) (hsemi : key.head? ≠ some ';')
    (hhash : key.head? ≠ some '#') (hopen : key.head? ≠ some '[') (out : ParsedMetadata)
    (sec : Section) :
    parseLine (out, sec) (key ++ '=' :: value) =
      (addPair out (unescape key, unescape value) sec, sec) := by
  have hsplit : splitOnceUnescaped (key ++ '=' :: value) '=' =
      some (unescape key, unescape value) :=
    splitOnceFrom_closed hkey (by simp) (by decide) []
  have hname : headerName (key ++ '=' :: value) = none := by
    unfold headerName
    split
    · rename_i rest heq
      cases key with
      | nil => cases heq
      | cons c key =>
          rw [List.cons_append, List.cons.injEq] at heq
          exact absurd (congrArg some heq.1) hopen
    · rfl
  have hcomment : ¬ ((key ++ '=' :: value).head? = some ';' ∨
      (key ++ '=' :: value).head? = some '#') := by
    cases key with
    | nil => simp
    | cons c key => exact not_or.2 ⟨hsemi, hhash⟩
  rw [parseLine, if_neg hcomment, hname, hsplit]

theorem closed_pairLine (pair : Pair) : Closed [newline] (pairLine pair) := by
  have hkey : Closed [newline] (escapeValue pair.1) := (closed_escapeValue pair.1).mono (by simp)
  have hvalue : Closed [newline] (escapeValue pair.2) := (closed_escapeValue pair.2).mono (by simp)
  have hrest : Closed [newline] ('=' :: escapeValue pair.2) :=
    .plain (by decide) (by decide) hvalue
  unfold pairLine
  dsimp only
  split
  · rename_i hbracket
    rcases hform : escapeValue pair.1 with - | ⟨c, rest⟩
    · simp [hform] at hbracket
    · rw [hform] at hkey hbracket
      cases hbracket
      cases hkey with
      | plain _ _ hkey => exact (Closed.pair hkey).append hrest
  · exact hkey.append hrest

theorem parseLine_pairLine (pair : Pair) (out : ParsedMetadata) (sec : Section) :
    parseLine (out, sec) (pairLine pair) = (addPair out pair sec, sec) := by
  have hkey := closed_escapeValue pair.1
  have hhead := head_escapeValue pair.1
  have hback := unescape_escapeValue pair.1
  unfold pairLine
  dsimp only
  split
  · rename_i hbracket
    rcases hform : escapeValue pair.1 with - | ⟨c, rest⟩
    · simp [hform] at hbracket
    · rw [hform] at hkey hbracket hback
      cases hbracket
      cases hkey with
      | plain hc _ hkey =>
          rw [parseLine_pair (.pair hkey) (by simp [backslash]) (by simp [backslash])
            (by simp [backslash]), unescape_pair, ← unescape_plain hc, hback, unescape_escapeValue]
  · rename_i hbracket
    rw [parseLine_pair hkey hhead.1 hhead.2 hbracket, hback, unescape_escapeValue]

/-! ## Documents -/

/-- The pairs of a chapter, its times first. -/
def chapterPairs (chapter : ChapterMeta) : List Pair :=
  ("TIMEBASE".toList, display chapter.timeBase.1.val ++ '/' :: display chapter.timeBase.2.val) ::
    ("START".toList, display chapter.start.val) :: ("END".toList, display chapter.end.val) ::
      chapter.metadata

theorem pairLine_plain (key : Str) (hkey : ∀ c ∈ key, mark c = [c])
    (hvalue : ∀ c ∈ value, mark c = [c]) (hopen : key.head? ≠ some '[') :
    pairLine (key, value) = key ++ '=' :: value := by
  have hplain : ∀ s : Str, (∀ c ∈ s, mark c = [c]) → escapeValue s = s := by
    intro s h
    rw [escapeValue_eq]
    exact (List.flatMap_congr h).trans (List.flatMap_singleton' s)
  rw [pairLine, hplain key hkey, hplain value hvalue, if_neg hopen]

theorem mark_display (n : Int) : ∀ c ∈ display n, mark c = [c] := by
  have hdigit : ∀ c, c.isDigit = true → mark c = [c] := by
    intro c hc
    have hne : ∀ d : Char, d.isDigit = false → c ≠ d := by
      rintro d hd rfl
      rw [hc] at hd
      cases hd
    have h₁ := hne backslash (by decide)
    have h₂ := hne quote (by decide)
    have h₃ := hne newline (by decide)
    have h₄ := hne '=' (by decide)
    have h₅ := hne ';' (by decide)
    have h₆ := hne '#' (by decide)
    simp [mark, isSpecial, SPECIAL, h₁, h₂, h₃, h₄, h₅, h₆]
  intro c hc
  unfold display at hc
  split at hc
  · rcases List.mem_cons.1 hc with rfl | hc
    · rfl
    · exact hdigit c (Nat.isDigit_of_mem_toDigits (by decide) (by decide) hc)
  · exact hdigit c (Nat.isDigit_of_mem_toDigits (by decide) (by decide) hc)

/-- The lines of a document. -/
def documentLines (global : List Pair) (streams : List (List Pair))
    (chapters : List ChapterMeta) : List Str :=
  HEADER_LINE ::
    ((global.filter fun pair => pair.1 ≠ "encoder".toList) ++
      [("encoder".toList, ENCODER_TAG)]).map pairLine ++
    streams.flatMap (fun stream => "[STREAM]".toList :: stream.map pairLine) ++
    chapters.flatMap (fun chapter => "[CHAPTER]".toList :: (chapterPairs chapter).map pairLine)

theorem writeChapter_eq (chapter : ChapterMeta) :
    writeChapter chapter =
      ("[CHAPTER]".toList :: (chapterPairs chapter).map pairLine).flatMap (· ++ [newline]) := by
  have hbase : ∀ c ∈ display chapter.timeBase.1.val ++ '/' :: display chapter.timeBase.2.val,
      mark c = [c] := by
    intro c hc
    rcases List.mem_append.1 hc with hc | hc
    · exact mark_display _ c hc
    · rcases List.mem_cons.1 hc with rfl | hc
      · rfl
      · exact mark_display _ c hc
  have hplain : ∀ s : Str, (s.all fun c => decide (mark c = [c])) = true →
      ∀ c ∈ s, mark c = [c] := by
    intro s h c hc
    exact of_decide_eq_true (List.all_eq_true.1 h c hc)
  have htimebase := pairLine_plain _ (hplain "TIMEBASE".toList (by decide +kernel)) hbase (by decide)
  have hstart := pairLine_plain _ (hplain "START".toList (by decide +kernel))
    (mark_display chapter.start.val) (by decide)
  have hend := pairLine_plain _ (hplain "END".toList (by decide +kernel))
    (mark_display chapter.end.val) (by decide)
  have hwrite : writeChapter chapter = "[CHAPTER]\n".toList ++
      ("TIMEBASE=".toList ++ display chapter.timeBase.1.val ++ '/' ::
        display chapter.timeBase.2.val ++ [newline]) ++
      ("START=".toList ++ display chapter.start.val ++ [newline]) ++
      ("END=".toList ++ display chapter.end.val ++ [newline]) ++
      chapter.metadata.flatMap writeKv := rfl
  rw [chapterPairs, List.map_cons, List.map_cons, List.map_cons, htimebase, hstart, hend, hwrite,
    writeKv_eq]
  simp [newline, List.flatMap_map]

theorem write_eq (global : List Pair) (streams : List (List Pair)) (chapters : List ChapterMeta) :
    write global streams chapters =
      (documentLines global streams chapters).flatMap (· ++ [newline]) := by
  have hchapters : chapters.flatMap writeChapter =
      (chapters.flatMap fun chapter =>
        "[CHAPTER]".toList :: (chapterPairs chapter).map pairLine).flatMap (· ++ [newline]) := by
    rw [List.flatMap_assoc]
    exact List.flatMap_congr fun chapter _ => writeChapter_eq chapter
  have hstreams : streams.flatMap (fun stream => "[STREAM]\n".toList ++ stream.flatMap writeKv) =
      (streams.flatMap fun stream =>
        "[STREAM]".toList :: stream.map pairLine).flatMap (· ++ [newline]) := by
    rw [List.flatMap_assoc]
    refine List.flatMap_congr fun stream _ => ?_
    rw [writeKv_eq]
    simp [newline, List.flatMap_map]
  rw [write, documentLines, hstreams, hchapters, writeKv_eq]
  simp only [List.cons_append, List.flatMap_cons, List.flatMap_append, List.flatMap_map,
    List.flatMap_nil, List.append_nil, List.append_assoc]

theorem closed_documentLines (global : List Pair) (streams : List (List Pair))
    (chapters : List ChapterMeta) :
    ∀ line ∈ documentLines global streams chapters, Closed [newline] line := by
  have hheader : ∀ s : Str, (s.all fun c => decide (c ≠ backslash ∧ c ∉ [newline])) = true →
      Closed [newline] s :=
    fun s h => closed_of_forall fun c hc => of_decide_eq_true (List.all_eq_true.1 h c hc)
  intro line hline
  simp only [documentLines, List.cons_append, List.mem_cons, List.mem_append, List.mem_map,
    List.mem_flatMap] at hline
  rcases hline with rfl | (⟨pair, -, rfl⟩ | ⟨stream, -, rfl | ⟨pair, -, rfl⟩⟩) |
    ⟨chapter, -, rfl | ⟨pair, -, rfl⟩⟩
  · exact hheader _ (by decide)
  · exact closed_pairLine pair
  · exact hheader _ (by decide)
  · exact closed_pairLine pair
  · exact hheader _ (by decide)
  · exact closed_pairLine pair

/-! ## Sections -/

theorem foldl_pairLine (pairs : List Pair) (out : ParsedMetadata) (sec : Section) :
    (pairs.map pairLine).foldl parseLine (out, sec) =
      (pairs.foldl (fun out pair => addPair out pair sec) out, sec) := by
  induction pairs generalizing out with
  | nil => rfl
  | cons pair pairs ih => rw [List.map_cons, List.foldl_cons, parseLine_pairLine, ih]; rfl

theorem foldl_addPair_global (pairs : List Pair) (out : ParsedMetadata) :
    pairs.foldl (fun out pair => addPair out pair .global) out =
      { out with global := out.global ++ pairs } := by
  induction pairs generalizing out with
  | nil => simp
  | cons pair pairs ih =>
      rw [List.foldl_cons, ih]
      simp [addPair]

theorem modify_last (sections : List (List Pair)) (pairs : List Pair)
    (f : List Pair → List Pair) :
    (sections ++ [pairs]).modify sections.length f = sections ++ [f pairs] := by
  induction sections with
  | nil => rfl
  | cons first sections ih => simp [ih]

section Kind

-- a document with the sections of one kind put in, and the name of one of them
variable (put : List (List Pair) → ParsedMetadata) (sec : Nat → Section)

theorem foldl_addPair_last
    (hadd : ∀ done i pair, addPair (put done) pair (sec i) = put (done.modify i (· ++ [pair])))
    (done : List (List Pair)) (pairs first : List Pair) :
    pairs.foldl (fun out pair => addPair out pair (sec done.length)) (put (done ++ [first])) =
      put (done ++ [first ++ pairs]) := by
  induction pairs generalizing first with
  | nil => simp
  | cons pair pairs ih =>
      rw [List.foldl_cons, hadd, modify_last, ih]
      simp

/-- The sections of one kind are read one after another. -/
theorem foldl_sections (header : Str)
    (hopen : ∀ done sec₀, parseLine (put done, sec₀) header = (put (done ++ [[]]), sec done.length))
    (hadd : ∀ done i pair, addPair (put done) pair (sec i) = put (done.modify i (· ++ [pair])))
    (sections done : List (List Pair)) (sec₀ : Section) :
    ∃ last, (sections.flatMap fun pairs => header :: pairs.map pairLine).foldl parseLine
      (put done, sec₀) = (put (done ++ sections), last) := by
  induction sections generalizing done sec₀ with
  | nil => exact ⟨sec₀, by simp⟩
  | cons pairs sections ih =>
      rw [List.flatMap_cons, List.cons_append, List.foldl_cons, hopen, List.foldl_append,
        foldl_pairLine, foldl_addPair_last put sec hadd]
      rcases ih (done ++ [[] ++ pairs]) (sec done.length) with ⟨last, hlast⟩
      exact ⟨last, by simpa using hlast⟩

end Kind

/-- A document is read back to its pairs, the encoder behind the global ones and the times of a
chapter first. -/
theorem parse_write (global : List Pair) (streams : List (List Pair))
    (chapters : List ChapterMeta) :
    parse (write global streams chapters) =
      ⟨(global.filter fun pair => pair.1 ≠ "encoder".toList) ++
          [("encoder".toList, ENCODER_TAG)],
        streams, chapters.map chapterPairs⟩ := by
  have hheader : parseLine (⟨[], [], []⟩, .global) HEADER_LINE = (⟨[], [], []⟩, .global) := rfl
  have hlast : ∀ state : ParsedMetadata × Section, parseLine state [] = state := fun _ => rfl
  rw [parse, write_eq, splitLines_lines (closed_documentLines global streams chapters),
    List.foldl_append, documentLines]
  generalize (global.filter fun pair => pair.1 ≠ "encoder".toList) ++
    [("encoder".toList, ENCODER_TAG)] = head
  rw [List.foldl_append, List.foldl_append, List.foldl_cons, List.foldl_nil, List.foldl_cons,
    hheader, foldl_pairLine, foldl_addPair_global]
  rcases foldl_sections (fun done => ⟨head, done, []⟩) .stream "[STREAM]".toList
    (fun _ _ => rfl) (fun _ _ _ => rfl) streams [] .global with ⟨sec, hstreams⟩
  rcases foldl_sections (fun done => ⟨head, streams, done⟩) .chapter "[CHAPTER]".toList
    (fun _ _ => rfl) (fun _ _ _ => rfl) (chapters.map chapterPairs) [] sec with ⟨last, hchapters⟩
  rw [List.flatMap_map] at hchapters
  rw [List.nil_append, hstreams, List.nil_append, hchapters, hlast]
  rfl

end Ffmetadata
end MuxStream
end Vaco
