import Mathlib.Tactic

/-!
# Escaped text

One level of the grammar writes a character bare, behind a backslash, or between quotes, where
everything up to the next quote is literal.  Text is split at the separators that stand outside
quotes and are not escaped, and the pieces are still escaped.

Two scanners know this grammar.  One collects all pieces, the other stops at the first separator.
At the end of the text the first takes an open quote as it is, and the second refuses it.

Main results:

- `splitOnceFrom_error_iff`: where the stricter scanner fails.
- `split_once_agrees_iff`: where the two scanners agree.

Current gaps:

- A text is a list of characters; their encoding in bytes is left out.
-/

namespace Vaco
namespace Core
namespace Escape

/-- A text, by its characters. -/
abbrev Str : Type :=
  List Char

/-- The quote. -/
def quote : Char :=
  '\x27'

/-- The backslash. -/
def backslash : Char :=
  '\x5c'

/-- How a text is escaped. -/
inductive Mode where
  | auto
  | backslash
  | quote
deriving DecidableEq

/-- A malformed escape. -/
inductive EscapeError where
  | unterminatedQuote
  | trailingBackslash
deriving DecidableEq

/-! ## Escaping -/

/-- Whether a character cannot stand bare. -/
def isSpecial (special : Str) (c : Char) : Bool :=
  c == backslash || c == quote || special.contains c

/-- Whether a text cannot be left alone. -/
def needsEscaping (s special : Str) : Bool :=
  s.any (isSpecial special)

def escape (s special : Str) (mode : Mode) : Str :=
  let escaped := s.flatMap fun c => if isSpecial special c then [backslash, c] else [c]
  match mode with
  | .auto => if needsEscaping s special then escaped else s
  | .backslash => escaped
  | .quote =>
      -- A quote is written by closing the quotes, escaping it and opening them again.
      quote :: s.flatMap (fun c => if c == quote then [quote, backslash, quote, quote] else [c]) ++
        [quote]

/-- The loop of reading one level of escapes. -/
def unescapeFrom : Bool → Str → Str
  | _, [] => []
  | inQuote, c :: rest =>
      if c = quote then unescapeFrom (!inQuote) rest
      else if c = backslash ∧ inQuote = false then
        match rest with
        | [] => [backslash]
        | n :: rest => n :: unescapeFrom inQuote rest
      else c :: unescapeFrom inQuote rest

/-- Read one level of escapes. -/
def unescape (s : Str) : Except EscapeError Str :=
  .ok (unescapeFrom false s)

/-- Whether there is anything to read. -/
def needsUnescaping (s : Str) : Bool :=
  s.contains backslash || s.contains quote

/-! ## Splitting -/

/-- The loop of splitting: `piece` is what has been scanned since the last separator. -/
def splitRawFrom (seps : Str) : Bool → Str → Str → List Str
  | _, piece, [] => [piece]
  | inQuote, piece, c :: rest =>
      if c = quote then splitRawFrom seps (!inQuote) (piece ++ [c]) rest
      else if c = backslash ∧ inQuote = false then
        match rest with
        | [] => [piece ++ [c]]
        | n :: rest => splitRawFrom seps inQuote (piece ++ [c, n]) rest
      else if inQuote = false ∧ seps.contains c then piece :: splitRawFrom seps inQuote [] rest
      else splitRawFrom seps inQuote (piece ++ [c]) rest

/-- Split at any of some separators; the pieces are still escaped. -/
def splitRaw (s seps : Str) : Except EscapeError (List Str) :=
  .ok (splitRawFrom seps false [] s)

/-- Split at a separator and read the escapes of each piece. -/
def split (s : Str) (sep : Char) : Except EscapeError (List Str) := do
  (← splitRaw s [sep]).mapM fun p => if needsUnescaping p then unescape p else .ok p

/-- The loop of splitting once. -/
def splitOnceFrom (seps : Str) : Bool → Str → Str → Except EscapeError (Option (Str × Str))
  | inQuote, _, [] => if inQuote then .error .unterminatedQuote else .ok none
  | inQuote, piece, c :: rest =>
      if c = quote then splitOnceFrom seps (!inQuote) (piece ++ [c]) rest
      else if c = backslash ∧ inQuote = false then
        match rest with
        | [] => .ok none
        | n :: rest => splitOnceFrom seps inQuote (piece ++ [c, n]) rest
      else if inQuote = false ∧ seps.contains c then .ok (some (piece, rest))
      else splitOnceFrom seps inQuote (piece ++ [c]) rest

/-- Split once, at the first of some separators. -/
def splitOnceRaw (s seps : Str) : Except EscapeError (Option (Str × Str)) :=
  splitOnceFrom seps false [] s

/-! ## Where a separator stands -/

/-- What the grammar says about a place in a text. -/
inductive Place where
  | bare
  | escaped
  | quoted
deriving DecidableEq

/-- The place behind a character. -/
def Place.step : Place → Char → Place
  | .bare, c => if c = quote then .quoted else if c = backslash then .escaped else .bare
  | .escaped, _ => .bare
  | .quoted, c => if c = quote then .bare else .quoted

/-- The place behind a text. -/
def Place.after (place : Place) (s : Str) : Place :=
  s.foldl Place.step place

/-- Whether a separator stands bare in a text. -/
def Separated (seps : Str) (place : Place) (s : Str) : Prop :=
  ∃ before c behind, s = before ++ c :: behind ∧ place.after before = .bare ∧
    c ∈ seps ∧ c ≠ quote ∧ c ≠ backslash

/-- The place of a scanner. -/
def placeOf (inQuote : Bool) : Place :=
  if inQuote then .quoted else .bare

variable {seps : Str}

theorem separated_nil (place : Place) : ¬ Separated seps place [] := by
  rintro ⟨before, c, behind, h, _⟩
  cases before <;> cases h

theorem separated_cons (place : Place) (c : Char) (rest : Str) :
    Separated seps place (c :: rest) ↔
      place = .bare ∧ c ∈ seps ∧ c ≠ quote ∧ c ≠ backslash ∨
        Separated seps (place.step c) rest := by
  constructor
  · rintro ⟨_ | ⟨b, before⟩, d, behind, h, hbare, hsep⟩
    · cases h
      exact .inl ⟨hbare, hsep⟩
    · cases h
      exact .inr ⟨before, d, behind, rfl, hbare, hsep⟩
  · rintro (⟨hbare, hsep⟩ | ⟨before, d, behind, rfl, hbare, hsep⟩)
    · exact ⟨[], c, rest, rfl, hbare, hsep⟩
    · exact ⟨c :: before, d, behind, rfl, hbare, hsep⟩

/-! ## Scanning -/

/-- Scanning takes a quote, a backslash at the end, a backslash with what it escapes, or any other
character. -/
theorem scan_induction {motive : Bool → Str → Prop} (nil : ∀ inQuote, motive inQuote [])
    (quoted : ∀ inQuote rest, motive (!inQuote) rest → motive inQuote (quote :: rest))
    (trailing : motive false [backslash])
    (escaped : ∀ n rest, motive false rest → motive false (backslash :: n :: rest))
    (plain : ∀ inQuote c rest, c ≠ quote → (c = backslash → inQuote = true) →
      motive inQuote rest → motive inQuote (c :: rest)) (inQuote : Bool) (s : Str) :
    motive inQuote s := by
  induction hlength : s.length using Nat.strong_induction_on generalizing inQuote s with
  | _ length ih =>
      rcases s with _ | ⟨c, rest⟩
      · exact nil inQuote
      · have hless : rest.length < length := hlength ▸ Nat.lt_succ_self _
        by_cases hquote : c = quote
        · subst hquote
          exact quoted inQuote rest (ih _ hless _ _ rfl)
        · by_cases hescape : c = backslash ∧ inQuote = false
          · rcases hescape with ⟨rfl, rfl⟩
            rcases rest with _ | ⟨n, rest⟩
            · exact trailing
            · exact escaped n rest (ih _ ((Nat.lt_succ_self _).trans hless) _ _ rfl)
          · refine plain inQuote c rest hquote (fun hc => ?_) (ih _ hless _ _ rfl)
            by_contra hopen
            exact hescape ⟨hc, Bool.eq_false_of_not_eq_true hopen⟩

variable {inQuote : Bool} {piece rest : Str} {c n : Char}

theorem backslash_ne_quote : backslash ≠ quote := by
  decide

theorem unescapeFrom_cons :
    unescapeFrom inQuote (c :: rest) =
      if c = quote then unescapeFrom (!inQuote) rest
      else if c = backslash ∧ inQuote = false then
        match rest with
        | [] => [backslash]
        | n :: rest => n :: unescapeFrom inQuote rest
      else c :: unescapeFrom inQuote rest := by
  cases rest <;> rfl

@[simp]
theorem unescapeFrom_quote :
    unescapeFrom inQuote (quote :: rest) = unescapeFrom (!inQuote) rest := by
  rw [unescapeFrom_cons, if_pos rfl]

@[simp]
theorem unescapeFrom_escaped :
    unescapeFrom false (backslash :: n :: rest) = n :: unescapeFrom false rest := by
  rw [unescapeFrom_cons, if_neg backslash_ne_quote, if_pos ⟨rfl, rfl⟩]

theorem unescapeFrom_plain (hquote : c ≠ quote) (hescape : c = backslash → inQuote = true) :
    unescapeFrom inQuote (c :: rest) = c :: unescapeFrom inQuote rest := by
  rw [unescapeFrom_cons, if_neg hquote, if_neg]
  rintro ⟨hc, hopen⟩
  exact Bool.noConfusion (hopen.symm.trans (hescape hc))

theorem splitRawFrom_cons :
    splitRawFrom seps inQuote piece (c :: rest) =
      if c = quote then splitRawFrom seps (!inQuote) (piece ++ [c]) rest
      else if c = backslash ∧ inQuote = false then
        match rest with
        | [] => [piece ++ [c]]
        | n :: rest => splitRawFrom seps inQuote (piece ++ [c, n]) rest
      else if inQuote = false ∧ seps.contains c then piece :: splitRawFrom seps inQuote [] rest
      else splitRawFrom seps inQuote (piece ++ [c]) rest := by
  cases rest <;> rfl

@[simp]
theorem splitRawFrom_quote :
    splitRawFrom seps inQuote piece (quote :: rest) =
      splitRawFrom seps (!inQuote) (piece ++ [quote]) rest := by
  rw [splitRawFrom_cons, if_pos rfl]

@[simp]
theorem splitRawFrom_trailing :
    splitRawFrom seps false piece [backslash] = [piece ++ [backslash]] := by
  rw [splitRawFrom_cons, if_neg backslash_ne_quote, if_pos ⟨rfl, rfl⟩]

@[simp]
theorem splitRawFrom_escaped :
    splitRawFrom seps false piece (backslash :: n :: rest) =
      splitRawFrom seps false (piece ++ [backslash, n]) rest := by
  rw [splitRawFrom_cons, if_neg backslash_ne_quote, if_pos ⟨rfl, rfl⟩]

theorem splitRawFrom_plain (hquote : c ≠ quote) (hescape : c = backslash → inQuote = true) :
    splitRawFrom seps inQuote piece (c :: rest) =
      if inQuote = false ∧ seps.contains c then piece :: splitRawFrom seps inQuote [] rest
      else splitRawFrom seps inQuote (piece ++ [c]) rest := by
  rw [splitRawFrom_cons, if_neg hquote, if_neg]
  rintro ⟨hc, hopen⟩
  exact Bool.noConfusion (hopen.symm.trans (hescape hc))

theorem splitOnceFrom_cons :
    splitOnceFrom seps inQuote piece (c :: rest) =
      if c = quote then splitOnceFrom seps (!inQuote) (piece ++ [c]) rest
      else if c = backslash ∧ inQuote = false then
        match rest with
        | [] => .ok none
        | n :: rest => splitOnceFrom seps inQuote (piece ++ [c, n]) rest
      else if inQuote = false ∧ seps.contains c then .ok (some (piece, rest))
      else splitOnceFrom seps inQuote (piece ++ [c]) rest := by
  cases rest <;> rfl

@[simp]
theorem splitOnceFrom_quote :
    splitOnceFrom seps inQuote piece (quote :: rest) =
      splitOnceFrom seps (!inQuote) (piece ++ [quote]) rest := by
  rw [splitOnceFrom_cons, if_pos rfl]

@[simp]
theorem splitOnceFrom_trailing : splitOnceFrom seps false piece [backslash] = .ok none := by
  rw [splitOnceFrom_cons, if_neg backslash_ne_quote, if_pos ⟨rfl, rfl⟩]

@[simp]
theorem splitOnceFrom_escaped :
    splitOnceFrom seps false piece (backslash :: n :: rest) =
      splitOnceFrom seps false (piece ++ [backslash, n]) rest := by
  rw [splitOnceFrom_cons, if_neg backslash_ne_quote, if_pos ⟨rfl, rfl⟩]

theorem splitOnceFrom_plain (hquote : c ≠ quote) (hescape : c = backslash → inQuote = true) :
    splitOnceFrom seps inQuote piece (c :: rest) =
      if inQuote = false ∧ seps.contains c then .ok (some (piece, rest))
      else splitOnceFrom seps inQuote (piece ++ [c]) rest := by
  rw [splitOnceFrom_cons, if_neg hquote, if_neg]
  rintro ⟨hc, hopen⟩
  exact Bool.noConfusion (hopen.symm.trans (hescape hc))

/-! ## The two scanners -/

/-- The scanners agree: at the first separator, and where there is none. -/
theorem splitOnceFrom_spec (inQuote : Bool) (s piece : Str) :
    match splitOnceFrom seps inQuote piece s with
    | .ok (some (head, tail)) =>
        splitRawFrom seps inQuote piece s = head :: splitRawFrom seps false [] tail
    | _ => splitRawFrom seps inQuote piece s = [piece ++ s] := by
  induction inQuote, s using scan_induction generalizing piece with
  | nil inQuote =>
      cases inQuote <;> simp [splitOnceFrom, splitRawFrom]
  | quoted inQuote rest ih =>
      simpa using ih (piece ++ [quote])
  | trailing => simp
  | escaped n rest ih =>
      simpa using ih (piece ++ [backslash, n])
  | plain inQuote c rest hquote hescape ih =>
      rw [splitOnceFrom_plain hquote hescape, splitRawFrom_plain hquote hescape]
      by_cases hsep : inQuote = false ∧ seps.contains c = true
      · rw [if_pos hsep, if_pos hsep, hsep.1]
      · rw [if_neg hsep, if_neg hsep]
        simpa using ih (piece ++ [c])

/-- The second scanner fails exactly where the text ends inside a quote and no separator stands
bare. -/
theorem splitOnceFrom_error_iff (inQuote : Bool) (s piece : Str) :
    (∃ e, splitOnceFrom seps inQuote piece s = .error e) ↔
      (placeOf inQuote).after s = .quoted ∧ ¬ Separated seps (placeOf inQuote) s := by
  induction inQuote, s using scan_induction generalizing piece with
  | nil inQuote =>
      cases inQuote <;> simp [splitOnceFrom, placeOf, Place.after, separated_nil]
  | quoted inQuote rest ih =>
      have hstep : (placeOf inQuote).step quote = placeOf (!inQuote) := by
        cases inQuote <;> rfl
      rw [splitOnceFrom_quote, ih, separated_cons, hstep]
      simp [Place.after, hstep]
  | trailing => simp [placeOf, Place.after, Place.step, backslash_ne_quote]
  | escaped n rest ih =>
      have hstep : (placeOf false).step backslash = .escaped := rfl
      have hback : Place.escaped.step n = placeOf false := rfl
      rw [splitOnceFrom_escaped, ih, separated_cons, hstep, separated_cons, hback]
      simp [Place.after, hstep, hback]
  | plain inQuote c rest hquote hescape ih =>
      have hstep : (placeOf inQuote).step c = placeOf inQuote := by
        cases inQuote with
        | true => simp [placeOf, Place.step, hquote]
        | false =>
            have hplain : c ≠ backslash := fun hc => Bool.noConfusion (hescape hc)
            simp [placeOf, Place.step, hquote, hplain]
      rw [splitOnceFrom_plain hquote hescape, separated_cons, hstep]
      have hafter : (placeOf inQuote).after (c :: rest) = (placeOf inQuote).after rest := by
        simp [Place.after, hstep]
      rw [hafter]
      by_cases hsep : inQuote = false ∧ seps.contains c = true
      · have hplain : c ≠ backslash := fun hc => Bool.noConfusion (hsep.1.symm.trans (hescape hc))
        have hbare : placeOf inQuote = .bare := by
          rw [hsep.1]
          rfl
        have hmem : c ∈ seps := List.contains_iff_mem.mp hsep.2
        rw [if_pos hsep]
        simp [hbare, hmem, hquote, hplain]
      · have hno : ¬ (placeOf inQuote = .bare ∧ c ∈ seps ∧ c ≠ quote ∧ c ≠ backslash) := by
          rintro ⟨hbare, hmem, _⟩
          refine hsep ⟨?_, List.contains_iff_mem.mpr hmem⟩
          cases inQuote with
          | false => rfl
          | true => cases hbare
        rw [if_neg hsep, ih, or_iff_right hno]

theorem splitRawFrom_ne_nil (inQuote : Bool) (s piece : Str) :
    splitRawFrom seps inQuote piece s ≠ [] := by
  have hspec := @splitOnceFrom_spec seps inQuote s piece
  split at hspec
  · rw [hspec]
    exact List.cons_ne_nil _ _
  · rw [hspec]
    exact List.cons_ne_nil _ _

theorem splitOnceRaw_some_iff (s seps : Str) :
    (∃ head tail, splitOnceRaw s seps = .ok (some (head, tail))) ↔
      ∃ pieces, splitRaw s seps = .ok pieces ∧ 2 ≤ pieces.length := by
  have hspec := @splitOnceFrom_spec seps false s []
  unfold splitOnceRaw splitRaw
  split at hspec
  · rename_i head tail hsome
    have hmore := List.length_pos_of_ne_nil (@splitRawFrom_ne_nil seps false tail [])
    refine iff_of_true ⟨head, tail, hsome⟩ ⟨_, rfl, ?_⟩
    rw [hspec, List.length_cons]
    omega
  · rename_i hnone
    refine iff_of_false ?_ ?_
    · rintro ⟨head, tail, hsome⟩
      exact hnone head tail hsome
    · rintro ⟨pieces, hpieces, htwo⟩
      cases hpieces
      rw [hspec, List.length_singleton] at htwo
      omega

theorem splitOnceRaw_some {s seps head tail : Str}
    (h : splitOnceRaw s seps = .ok (some (head, tail))) :
    ∃ rest, splitRaw tail seps = .ok rest ∧ splitRaw s seps = .ok (head :: rest) := by
  have hspec := @splitOnceFrom_spec seps false s []
  unfold splitOnceRaw at h
  rw [h] at hspec
  refine ⟨_, rfl, ?_⟩
  unfold splitRaw
  rw [hspec]

/-- The scanners agree on a text, and on failing, exactly when its quotes are closed or a separator
stands bare in it. -/
theorem split_once_agrees_iff (s seps : Str) :
    (((∃ head tail, splitOnceRaw s seps = .ok (some (head, tail))) ↔
        ∃ pieces, splitRaw s seps = .ok pieces ∧ 2 ≤ pieces.length) ∧
      (∀ head tail, splitOnceRaw s seps = .ok (some (head, tail)) →
        ∃ rest, splitRaw tail seps = .ok rest ∧ splitRaw s seps = .ok (head :: rest)) ∧
      ((∃ e, splitOnceRaw s seps = .error e) ↔ ∃ e, splitRaw s seps = .error e)) ↔
    (Place.bare.after s ≠ .quoted ∨ Separated seps .bare s) := by
  have hfails : (∃ e, splitOnceRaw s seps = .error e) ↔
      Place.bare.after s = .quoted ∧ ¬ Separated seps .bare s :=
    splitOnceFrom_error_iff false s []
  have hnever : ¬ ∃ e, splitRaw s seps = .error e := by
    rintro ⟨e, he⟩
    cases he
  rw [hfails, iff_false_right hnever]
  constructor
  · rintro ⟨_, _, hagree⟩
    by_contra hwhen
    rw [not_or, not_not] at hwhen
    exact hagree hwhen
  · intro hwhen
    refine ⟨splitOnceRaw_some_iff s seps, fun _ _ => splitOnceRaw_some, ?_⟩
    rintro ⟨hquoted, hnone⟩
    rcases hwhen with hclosed | hsep
    · exact hclosed hquoted
    · exact hnone hsep

/-- A quote that is never closed. -/
theorem split_once_open_quote :
    splitOnceRaw [quote, 'a', 'b'] [':'] = .error .unterminatedQuote ∧
      splitRaw [quote, 'a', 'b'] [':'] = .ok [[quote, 'a', 'b']] := by
  decide

end Escape
end Core
end Vaco
