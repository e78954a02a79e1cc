import Vaco.Bitstream.StartCode

/-!
# Scanning a buffer that grows

A scanner remembers how far into a buffer no start code begins, and starts over from there when
the buffer has grown.  Bytes may be taken off the front in between.  As long as the mark tells
the truth, the scanner finds what a scan from the floor finds; and a start code that is found
stays where it is when more bytes arrive.

Main results:

- `firstCode_append`: more bytes do not change a start code that is there.
-/

namespace Vaco
namespace Bitstream

open Library BitStream

structure StartCode where
  offset : Nat
  len : Nat
deriving DecidableEq

/-- The first byte behind a start code. -/
def StartCode.payloadOffset (sc : StartCode) : Nat :=
  sc.offset + sc.len

/-- The start code whose last three bytes begin at a position. -/
def classify (buf : Bytes) (i : Nat) : StartCode :=
  if 1 ≤ i ∧ buf[i - 1]? = some 0 then ⟨i - 1, 4⟩ else ⟨i, 3⟩

/-- How far no start code begins. -/
structure Scanner where
  scanned : Nat
deriving DecidableEq

namespace Scanner

/-- A scanner that has ruled nothing out. -/
def new : Scanner where
  scanned := 0

/-- Look for the next start code, from a floor or from the mark. -/
def find (s : Scanner) (buf : Bytes) (floor : Nat) : Option StartCode × Scanner :=
  let first := max floor s.scanned
  match findStartCode buf first with
  | none =>
      -- The last two bytes may be the beginning of a start code.
      let limit := buf.length - 2
      (none, if first ≤ limit then ⟨limit⟩ else s)
  | some i => (some (classify buf i), ⟨i⟩)

/-- Bytes have been taken off the front of the buffer. -/
def consume (s : Scanner) (n : Nat) : Scanner where
  scanned := s.scanned - n

end Scanner

/-- The first start code at or behind a floor. -/
def firstCode (buf : Bytes) (floor : Nat) : Option StartCode :=
  (findStartCode buf floor).map (classify buf)

/-! ## Finding -/

variable {buf : Bytes} {floor i : Nat}

theorem length_of_startsCode (h : startsCode (buf.drop i) = true) : i + 3 ≤ buf.length := by
  rw [startsCode_drop] at h
  rcases List.getElem?_eq_some_iff.mp h.2.2 with ⟨hlt, _⟩
  omega

theorem startsCode_append (h : i + 3 ≤ buf.length) (more : Bytes) :
    startsCode ((buf ++ more).drop i) = startsCode (buf.drop i) := by
  have hget : ∀ k < buf.length, (buf ++ more)[k]? = buf[k]? :=
    fun k hk => List.getElem?_append_left hk
  rw [Bool.eq_iff_iff, startsCode_drop, startsCode_drop, hget i (by omega),
    hget (i + 1) (by omega), hget (i + 2) (by omega)]

theorem classify_append (h : i < buf.length) (more : Bytes) :
    classify (buf ++ more) i = classify buf i := by
  unfold classify
  rw [List.getElem?_append_left (by omega : i - 1 < buf.length)]

theorem findStartCode_append (h : findStartCode buf floor = some i) (more : Bytes) :
    findStartCode (buf ++ more) floor = some i := by
  rw [findStartCode_eq_some_iff] at h ⊢
  rcases h with ⟨hle, hstarts, hnone⟩
  have hlength := length_of_startsCode hstarts
  refine ⟨hle, by rwa [startsCode_append hlength], ?_⟩
  intro j hj hlt
  rw [startsCode_append (by omega)]
  exact hnone j hj hlt

/-- More bytes do not change the first start code when there is one. -/
theorem firstCode_append {sc : StartCode} (h : firstCode buf floor = some sc) (more : Bytes) :
    firstCode (buf ++ more) floor = some sc := by
  rw [firstCode, Option.map_eq_some_iff] at h ⊢
  rcases h with ⟨i, hi, rfl⟩
  have hbounds := findStartCode_bounds hi
  exact ⟨i, findStartCode_append hi more, classify_append (by omega) more⟩

theorem payloadOffset_classify (buf : Bytes) (i : Nat) : (classify buf i).payloadOffset = i + 3 := by
  unfold StartCode.payloadOffset classify
  split
  · dsimp only
    omega
  · rfl

theorem firstCode_bounds {sc : StartCode} (h : firstCode buf floor = some sc) :
    sc.payloadOffset ≤ buf.length ∧ floor + 3 ≤ sc.payloadOffset := by
  rw [firstCode, Option.map_eq_some_iff] at h
  rcases h with ⟨i, hi, rfl⟩
  have hbounds := findStartCode_bounds hi
  rw [payloadOffset_classify]
  omega

/-- Where no start code begins, three bytes are enough to tell what comes. -/
theorem firstCode_tail (hnone : firstCode buf 0 = none) (more : Bytes) :
    firstCode (buf ++ more) 0 =
      (firstCode (buf.drop (buf.length - 3) ++ more) 0).map fun sc =>
        ⟨sc.offset + (buf.length - 3), sc.len⟩ := by
  generalize hk : buf.length - 3 = k
  rw [firstCode, Option.map_eq_none_iff, findStartCode_eq_none_iff] at hnone
  have hdrop : ∀ i, (buf ++ more).drop (i + k) = (buf.drop k ++ more).drop i := by
    intro i
    rw [← List.drop_append_of_le_length (by omega : k ≤ buf.length), List.drop_drop, Nat.add_comm]
  -- Before the last three bytes no start code begins, and none begins at the first of them.
  have hearly : ∀ j < k, startsCode ((buf ++ more).drop j) = false := by
    intro j hj
    rw [startsCode_append (by omega)]
    exact hnone j (Nat.zero_le j)
  cases hfound : findStartCode (buf.drop k ++ more) 0 with
  | none =>
      have hall : findStartCode (buf ++ more) 0 = none := by
        rw [findStartCode_eq_none_iff] at hfound ⊢
        intro j _
        by_cases hj : j < k
        · exact hearly j hj
        · have hlate := hfound (j - k) (Nat.zero_le _)
          rwa [← hdrop, Nat.sub_add_cancel (by omega)] at hlate
      simp only [firstCode, hall, hfound, Option.map_none]
  | some i =>
      have hsome : findStartCode (buf ++ more) 0 = some (i + k) := by
        rw [findStartCode_eq_some_iff] at hfound ⊢
        rcases hfound with ⟨_, hstarts, hbefore⟩
        refine ⟨Nat.zero_le _, by rwa [hdrop], ?_⟩
        intro j _ hlt
        by_cases hj : j < k
        · exact hearly j hj
        · have hlate := hbefore (j - k) (Nat.zero_le _) (by omega)
          rwa [← hdrop, Nat.sub_add_cancel (by omega)] at hlate
      have hshift : k = 0 ∨ 1 ≤ i := by
        by_contra hfirst
        have hi : i = 0 := by omega
        rw [hi, findStartCode_eq_some_iff, ← hdrop, startsCode_append (by omega)] at hfound
        rw [hnone _ (Nat.zero_le _)] at hfound
        exact Bool.false_ne_true hfound.2.1
      have hclass : classify (buf ++ more) (i + k) =
          ⟨(classify (buf.drop k ++ more) i).offset + k,
            (classify (buf.drop k ++ more) i).len⟩ := by
        rcases hshift with rfl | hi
        · simp
        · have hget : (buf ++ more)[i + k - 1]? = (buf.drop k ++ more)[i - 1]? := by
            rw [← List.drop_append_of_le_length (by omega : k ≤ buf.length), List.getElem?_drop]
            congr 1
            omega
          unfold classify
          simp only [hget, hi, show 1 ≤ i + k by omega, true_and]
          split
          · simp only [StartCode.mk.injEq, and_true]
            omega
          · rfl
      simp only [firstCode, hsome, hfound, Option.map_some, hclass]

/-! ## The mark -/

namespace Scanner

variable {s : Scanner}

/-- From the floor to the mark all bytes are there, and no start code begins. -/
def Rules (s : Scanner) (buf : Bytes) (floor : Nat) : Prop :=
  ∀ j, floor ≤ j → j < s.scanned → j + 3 ≤ buf.length ∧ startsCode (buf.drop j) = false

theorem find_bounds {sc : StartCode} (h : (s.find buf floor).1 = some sc) :
    sc.payloadOffset ≤ buf.length ∧ floor + 3 ≤ sc.payloadOffset := by
  unfold Scanner.find at h
  dsimp only at h
  split at h
  · cases h
  · rename_i i hi
    have hbounds := findStartCode_bounds hi
    rw [← Option.some.inj h, payloadOffset_classify]
    omega

theorem scanned_le_find : s.scanned ≤ (s.find buf floor).2.scanned := by
  unfold Scanner.find
  dsimp only
  split
  · split
    · dsimp only
      omega
    · exact Nat.le_refl _
  · rename_i i hi
    have hbounds := findStartCode_bounds hi
    dsimp only
    omega

theorem rules_of_le (h : s.scanned ≤ floor) : s.Rules buf floor := by
  intro j hj hlt
  omega

/-- The scanner finds the first start code behind the floor, and its mark still tells the
truth. -/
theorem Rules.find (h : s.Rules buf floor) :
    (s.find buf floor).1 = firstCode buf floor ∧ (s.find buf floor).2.Rules buf floor := by
  have hskip : findStartCode buf floor = findStartCode buf (max floor s.scanned) := by
    cases hfound : findStartCode buf (max floor s.scanned) with
    | none =>
        rw [findStartCode_eq_none_iff] at hfound ⊢
        intro j hj
        by_cases hmark : j < s.scanned
        · exact (h j hj hmark).2
        · exact hfound j (by omega)
    | some i =>
        rw [findStartCode_eq_some_iff] at hfound ⊢
        rcases hfound with ⟨hle, hstarts, hnone⟩
        refine ⟨by omega, hstarts, ?_⟩
        intro j hj hlt
        by_cases hmark : j < s.scanned
        · exact (h j hj hmark).2
        · exact hnone j (by omega) hlt
  cases hfound : findStartCode buf (max floor s.scanned) with
  | none =>
      have hnone := hskip.trans hfound
      simp only [Scanner.find, firstCode, hfound, hnone]
      rw [findStartCode_eq_none_iff] at hnone
      refine ⟨rfl, ?_⟩
      split
      · intro j hj hlt
        dsimp only at hlt
        exact ⟨by omega, hnone j hj⟩
      · exact h
  | some i =>
      have hsome := hskip.trans hfound
      have hbounds := findStartCode_bounds hfound
      simp only [Scanner.find, firstCode, hfound, hsome]
      rw [findStartCode_eq_some_iff] at hsome
      refine ⟨rfl, ?_⟩
      intro j hj hlt
      dsimp only at hlt
      exact ⟨by omega, hsome.2.2 j hj hlt⟩

/-- The mark tells the truth when more bytes arrive. -/
theorem Rules.append (h : s.Rules buf floor) (more : Bytes) : s.Rules (buf ++ more) floor := by
  intro j hj hlt
  rcases h j hj hlt with ⟨hlength, hnone⟩
  rw [startsCode_append hlength, List.length_append]
  exact ⟨by omega, hnone⟩

/-- The mark tells the truth when bytes are taken off the front, also behind a floor that has
moved on. -/
theorem Rules.consume (h : s.Rules buf floor) {n floor' : Nat} (hfloor : floor ≤ floor' + n) :
    (s.consume n).Rules (buf.drop n) floor' := by
  intro j hj hlt
  simp only [Scanner.consume] at hlt
  rcases h (j + n) (by omega) (by omega) with ⟨hlength, hnone⟩
  rw [List.drop_drop, Nat.add_comm n j, List.length_drop]
  exact ⟨by omega, hnone⟩

end Scanner

end Bitstream
end Vaco
