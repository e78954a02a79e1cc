import Vaco.Core.Escape

/-!
# Escaped text in escaped text

A list of texts is written by escaping each and joining them with a separator that was escaped in
them.  Splitting finds those separators only, so each text comes back, also when it is such a list
itself.

The quote and the backslash are escapes before they are separators, so neither can join a list.

Main results:

- `unescape_escape`: what is escaped is read back.
- `escape_round_trips`: so are lists, nested to any depth.
-/

namespace Vaco
namespace Core
namespace Escape

variable {special seps : Str} {s : Str}

/-! ## One text -/

/-- The body of a text between quotes. -/
def quotedBody (s : Str) : Str :=
  s.flatMap fun c => if c == quote then [quote, backslash, quote, quote] else [c]

/-- A text with its special characters behind backslashes. -/
def escapedBody (s special : Str) : Str :=
  s.flatMap fun c => if isSpecial special c then [backslash, c] else [c]

@[simp]
theorem quotedBody_quote (s : Str) :
    quotedBody (quote :: s) = quote :: backslash :: quote :: quote :: quotedBody s :=
  rfl

theorem quotedBody_plain {c : Char} (h : c ≠ quote) (s : Str) :
    quotedBody (c :: s) = c :: quotedBody s := by
  simp [quotedBody, h]

theorem escapedBody_special {c : Char} (h : isSpecial special c = true) (s : Str) :
    escapedBody (c :: s) special = backslash :: c :: escapedBody s special := by
  simp [escapedBody, h]

theorem escapedBody_plain {c : Char} (h : ¬ isSpecial special c = true) (s : Str) :
    escapedBody (c :: s) special = c :: escapedBody s special := by
  simp [escapedBody, h]

theorem escapedBody_of_not_needsEscaping (h : ¬ needsEscaping s special = true) :
    escapedBody s special = s := by
  unfold needsEscaping at h
  induction s with
  | nil => rfl
  | cons c rest ih =>
      simp only [List.any_cons, Bool.or_eq_true, not_or] at h
      rw [escapedBody_plain h.1, ih h.2]

theorem escape_cases (s special : Str) (mode : Mode) :
    escape s special mode = escapedBody s special ∨
      escape s special mode = quote :: quotedBody s ++ [quote] := by
  cases mode with
  | auto =>
      by_cases hneeds : needsEscaping s special = true
      · exact .inl (if_pos hneeds)
      · exact .inl ((if_neg hneeds).trans (escapedBody_of_not_needsEscaping hneeds).symm)
  | backslash => exact .inl rfl
  | quote => exact .inr rfl

theorem plain_of_not_isSpecial {c : Char} (h : ¬ isSpecial special c = true) :
    c ≠ quote ∧ c ≠ backslash ∧ c ∉ special := by
  simpa [isSpecial, not_or, and_comm, and_left_comm, and_assoc] using h

theorem unescapeFrom_escapedBody (s rest : Str) :
    unescapeFrom false (escapedBody s special ++ rest) = s ++ unescapeFrom false rest := by
  induction s with
  | nil => rfl
  | cons c s ih =>
      by_cases hspecial : isSpecial special c = true
      · rw [escapedBody_special hspecial]
        simp [ih]
      · rcases plain_of_not_isSpecial hspecial with ⟨hquote, hplain, _⟩
        rw [escapedBody_plain hspecial, List.cons_append,
          unescapeFrom_plain hquote fun hc => absurd hc hplain, ih]
        rfl

theorem unescapeFrom_quotedBody (s rest : Str) :
    unescapeFrom true (quotedBody s ++ rest) = s ++ unescapeFrom true rest := by
  induction s with
  | nil => rfl
  | cons c s ih =>
      by_cases hquote : c = quote
      · subst hquote
        simp [ih]
      · rw [quotedBody_plain hquote, List.cons_append, unescapeFrom_plain hquote fun _ => rfl, ih]
        rfl

theorem unescapeFrom_escape (s special rest : Str) (mode : Mode) :
    unescapeFrom false (escape s special mode ++ rest) = s ++ unescapeFrom false rest := by
  rcases escape_cases s special mode with hbody | hbody
  · rw [hbody, unescapeFrom_escapedBody]
  · rw [hbody]
    simp [unescapeFrom_quotedBody]

/-- What is escaped is read back. -/
theorem unescape_escape (s special : Str) (mode : Mode) :
    unescape (escape s special mode) = .ok s := by
  have hread := unescapeFrom_escape s special [] mode
  rw [List.append_nil] at hread
  rw [unescape, hread, unescapeFrom, List.append_nil]

/-! ## Lists of texts -/

theorem splitRawFrom_escapedBody (hseps : ∀ c ∈ seps, c ∈ special) (s piece rest : Str) :
    splitRawFrom seps false piece (escapedBody s special ++ rest) =
      splitRawFrom seps false (piece ++ escapedBody s special) rest := by
  induction s generalizing piece with
  | nil => simp [escapedBody]
  | cons c s ih =>
      by_cases hspecial : isSpecial special c = true
      · rw [escapedBody_special hspecial]
        simp [ih]
      · rcases plain_of_not_isSpecial hspecial with ⟨hquote, hplain, hbare⟩
        have hno : ¬ (false = false ∧ seps.contains c = true) := fun hsep =>
          hbare (hseps c (List.contains_iff_mem.mp hsep.2))
        rw [escapedBody_plain hspecial, List.cons_append,
          splitRawFrom_plain hquote fun hc => absurd hc hplain, if_neg hno, ih]
        simp

theorem splitRawFrom_quotedBody (s piece rest : Str) :
    splitRawFrom seps true piece (quotedBody s ++ rest) =
      splitRawFrom seps true (piece ++ quotedBody s) rest := by
  induction s generalizing piece with
  | nil => simp [quotedBody]
  | cons c s ih =>
      by_cases hquote : c = quote
      · subst hquote
        simp [ih]
      · have hno : ¬ (true = false ∧ seps.contains c = true) := fun hsep =>
          Bool.noConfusion hsep.1
        rw [quotedBody_plain hquote, List.cons_append, splitRawFrom_plain hquote fun _ => rfl,
          if_neg hno, ih]
        simp

theorem splitRawFrom_escape (hseps : ∀ c ∈ seps, c ∈ special) (s : Str) (mode : Mode)
    (piece rest : Str) :
    splitRawFrom seps false piece (escape s special mode ++ rest) =
      splitRawFrom seps false (piece ++ escape s special mode) rest := by
  rcases escape_cases s special mode with hbody | hbody
  · rw [hbody, splitRawFrom_escapedBody hseps]
  · rw [hbody]
    simp [splitRawFrom_quotedBody]

/-- A level of the grammar: what is escaped, what is split at, and what joins. -/
structure Level where
  special : Str
  seps : Str
  sep : Char
  sep_mem : sep ∈ seps
  seps_special : ∀ c ∈ seps, c ∈ special
  sep_ne_quote : sep ≠ quote
  sep_ne_backslash : sep ≠ backslash

variable (l : Level)

theorem splitRawFrom_join (piece : Str) (mode : Mode) (s : Str) (rest : List (Mode × Str)) :
    splitRawFrom l.seps false piece
        ([l.sep].intercalate (((mode, s) :: rest).map fun p => escape p.2 l.special p.1)) =
      (piece ++ escape s l.special mode) :: rest.map fun p => escape p.2 l.special p.1 := by
  induction rest generalizing piece mode s with
  | nil =>
      have hend := splitRawFrom_escape l.seps_special s mode piece []
      rw [List.append_nil] at hend
      simp [hend, splitRawFrom]
  | cons next rest ih =>
      have hsep : false = false ∧ l.seps.contains l.sep = true :=
        ⟨rfl, List.contains_iff_mem.mpr l.sep_mem⟩
      have hnext := ih [] next.1 next.2
      rw [List.nil_append] at hnext
      rw [List.map_cons, List.map_cons, List.intercalate_cons_cons, List.append_assoc,
        splitRawFrom_escape l.seps_special, List.singleton_append,
        splitRawFrom_plain l.sep_ne_quote fun hc => absurd hc l.sep_ne_backslash, if_pos hsep,
        ← List.map_cons (f := fun p : Mode × Str => escape p.2 l.special p.1), hnext]
      rfl

theorem mapM_unescape (special : Str) (parts : List (Mode × Str)) :
    (parts.map fun p => escape p.2 special p.1).mapM unescape = .ok (parts.map Prod.snd) := by
  induction parts with
  | nil => rfl
  | cons p parts ih =>
      rw [List.map_cons, List.mapM_cons, unescape_escape, ih]
      rfl

/-- What is escaped and joined comes apart again. -/
theorem splitRaw_join (first : Mode × Str) (rest : List (Mode × Str)) :
    (splitRaw ([l.sep].intercalate ((first :: rest).map fun p => escape p.2 l.special p.1))
        l.seps >>= List.mapM unescape) = .ok ((first :: rest).map Prod.snd) := by
  unfold splitRaw
  rw [splitRawFrom_join, List.nil_append]
  exact mapM_unescape l.special (first :: rest)

theorem unescape_of_not_needsUnescaping (h : ¬ needsUnescaping s = true) : unescape s = .ok s := by
  have hfrom : unescapeFrom false s = s := by
    induction s with
    | nil => rfl
    | cons c rest ih =>
        simp only [needsUnescaping, List.contains_cons, Bool.or_eq_true, beq_iff_eq, not_or] at h ih
        rw [unescapeFrom_plain (Ne.symm h.2.1) fun hc => absurd hc (Ne.symm h.1.1),
          ih ⟨h.1.2, h.2.2⟩]
  rw [unescape, hfrom]

theorem split_eq (s : Str) (sep : Char) : split s sep = splitRaw s [sep] >>= List.mapM unescape := by
  have hpiece : (fun p => if needsUnescaping p then unescape p else .ok p) = unescape := by
    funext p
    by_cases hneeds : needsUnescaping p = true
    · rw [if_pos hneeds]
    · rw [if_neg hneeds, unescape_of_not_needsUnescaping hneeds]
  unfold split
  rw [hpiece]

/-! ## Lists in lists -/

/-- A text, or a list at some level of more such, with the mode it is escaped in. -/
inductive Nest (α : Type) where
  | text (mode : Mode) (value : α)
  | list (mode : Mode) (l : Level) (first : Nest α) (rest : List (Nest α))

namespace Nest

/-- How a nest is escaped in a list. -/
def mode {α : Type} : Nest α → Mode
  | text mode _ => mode
  | list mode _ _ _ => mode

mutual

/-- Write a nest: its parts are written, escaped and joined. -/
def write : Nest Str → Str
  | text _ s => s
  | list _ l first rest =>
      [l.sep].intercalate (escape first.write l.special first.mode :: writeAll l rest)

/-- Write the parts of a list. -/
def writeAll (l : Level) : List (Nest Str) → List Str
  | [] => []
  | n :: rest => escape n.write l.special n.mode :: writeAll l rest

end

mutual

/-- Read a text that has the shape of a nest: it is split, and the pieces are read. -/
def read {α : Type} : Nest α → Str → Option (Nest Str)
  | text mode _, s => some (text mode s)
  | list mode l first rest, s =>
      match splitRaw s l.seps >>= List.mapM unescape with
      | .ok (piece :: pieces) => do
          let first ← first.read piece
          let rest ← readAll rest pieces
          some (list mode l first rest)
      | _ => none

/-- Read the parts of a list. -/
def readAll {α : Type} : List (Nest α) → List Str → Option (List (Nest Str))
  | [], [] => some []
  | n :: rest, piece :: pieces => do
      let n ← n.read piece
      let rest ← readAll rest pieces
      some (n :: rest)
  | _, _ => none

end

mutual

/-- The shape of a nest, without its texts. -/
def shape {α : Type} : Nest α → Nest Unit
  | text mode _ => text mode ()
  | list mode l first rest => list mode l first.shape (shapeAll rest)

/-- The shapes of the parts of a list. -/
def shapeAll {α : Type} : List (Nest α) → List (Nest Unit)
  | [] => []
  | n :: rest => n.shape :: shapeAll rest

end

theorem writeAll_eq (l : Level) (rest : List (Nest Str)) :
    writeAll l rest = (rest.map fun n => (n.mode, n.write)).map fun p =>
      escape p.2 l.special p.1 := by
  induction rest with
  | nil => rfl
  | cons n rest ih => rw [writeAll, ih, List.map_cons, List.map_cons]

mutual

theorem read_write : (n : Nest Str) → n.shape.read n.write = some n
  | text mode s => rfl
  | list mode l first rest => by
      have hsplit := splitRaw_join l (first.mode, first.write)
        (rest.map fun n => (n.mode, n.write))
      rw [shape, write, read, writeAll_eq]
      rw [List.map_cons] at hsplit
      have htexts : (rest.map fun n => (n.mode, n.write)).map Prod.snd = rest.map write := by
        rw [List.map_map]
        rfl
      rw [hsplit, List.map_cons, htexts]
      dsimp only
      rw [read_write first, readAll_write rest]
      rfl

theorem readAll_write : (rest : List (Nest Str)) →
    readAll (shapeAll rest) (rest.map write) = some rest
  | [] => rfl
  | n :: rest => by
      rw [shapeAll, List.map_cons, readAll, read_write n, readAll_write rest]
      rfl

end

end Nest

/-- Texts are read back, and so are lists of texts, nested to any depth, whose separator is special
and no escape. -/
theorem escape_round_trips :
    (∀ s special mode, unescape (escape s special mode) = .ok s) ∧
      (∀ (l : Level) (first : Mode × Str) (rest : List (Mode × Str)),
        (splitRaw ([l.sep].intercalate ((first :: rest).map fun p => escape p.2 l.special p.1))
            l.seps >>= List.mapM unescape) = .ok ((first :: rest).map Prod.snd) ∧
          split ([l.sep].intercalate ((first :: rest).map fun p => escape p.2 l.special p.1))
            l.sep = .ok ((first :: rest).map Prod.snd)) ∧
      ∀ n : Nest Str, n.shape.read n.write = some n := by
  refine ⟨unescape_escape, fun l first rest => ⟨splitRaw_join l first rest, ?_⟩, Nest.read_write⟩
  have hmem : ∀ c ∈ [l.sep], c ∈ l.special := fun c hc =>
    List.mem_singleton.mp hc ▸ l.seps_special l.sep l.sep_mem
  rw [split_eq]
  exact splitRaw_join { l with
    seps := [l.sep], sep_mem := List.mem_singleton.mpr rfl, seps_special := hmem } first rest

/-- Lists whose texts stand between some separator, which is a colon or a comma. -/
def listOf (sep : Char) (h : sep ∈ [':', ',']) : Level where
  special := [':', ',']
  seps := [sep]
  sep := sep
  sep_mem := List.mem_singleton_self sep
  seps_special := fun _ hc => List.mem_singleton.mp hc ▸ h
  sep_ne_quote := by rintro rfl; exact absurd h (by decide)
  sep_ne_backslash := by rintro rfl; exact absurd h (by decide)

/-- A text with a quote and a list of two texts, in a list. -/
def twoLevels : Nest Str :=
  .list .auto (listOf ':' (by decide)) (.text .quote "it's".toList)
    [.list .backslash (listOf ',' (by decide)) (.text .auto "a,b".toList)
      [.text .quote "c:d".toList]]

theorem escape_round_trips_twoLevels : twoLevels.shape.read twoLevels.write = some twoLevels :=
  escape_round_trips.2.2 twoLevels

/-- Texts that are joined with the quote do not come apart. -/
theorem quote_does_not_separate :
    (splitRaw ([quote].intercalate [escape ['a'] [quote] .auto, escape ['b'] [quote] .auto])
      [quote] >>= List.mapM unescape) = .ok [['a', 'b']] := by
  decide

end Escape
end Core
end Vaco
