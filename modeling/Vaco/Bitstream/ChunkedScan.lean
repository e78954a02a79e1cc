import Vaco.Bitstream.Scanner

/-!
# Scanning a stream in chunks

A stream arrives in chunks at the end of a buffer.  The scanner is asked again and again for the next
start code behind the last one, and bytes that are not needed any more are taken off the front of
the buffer in between.  The ghost `seen` is all that has arrived.

Main results:

- `find_drop`: the scanner on a buffer without its front.
- `chunked_scan_eq_whole`: exactly the start codes of the whole are reported.
-/

namespace Vaco
namespace Bitstream

open Library BitStream

/-! ## One scan of the whole -/

def scanFrom (buf : Bytes) (floor : Nat) : List StartCode :=
  match _h : firstCode buf floor with
  | none => []
  | some sc => sc :: scanFrom buf sc.payloadOffset
termination_by buf.length - floor
decreasing_by
  have hbounds := firstCode_bounds _h
  omega

variable {buf seen : Bytes} {floor gone i n : Nat} {s : Scanner} {sc : StartCode}

theorem scanFrom_of_none (h : firstCode buf floor = none) : scanFrom buf floor = [] := by
  rw [scanFrom]
  split
  · rfl
  · rename_i hsome
    rw [h] at hsome
    cases hsome

theorem scanFrom_of_some (h : firstCode buf floor = some sc) :
    scanFrom buf floor = sc :: scanFrom buf sc.payloadOffset := by
  rw [scanFrom]
  split
  · rename_i hnone
    rw [h] at hnone
    cases hnone
  · rename_i hsome
    rw [h] at hsome
    cases hsome
    rfl

theorem three_le_len (h : firstCode buf floor = some sc) : 3 ≤ sc.len := by
  rw [firstCode, Option.map_eq_some_iff] at h
  rcases h with ⟨i, -, rfl⟩
  rw [classify]
  split
  · exact Nat.le_succ 3
  · exact Nat.le_refl 3

theorem scanFrom_sorted (buf : Bytes) (floor : Nat) :
    (∀ sc ∈ scanFrom buf floor, floor + 3 ≤ sc.payloadOffset) ∧
      (scanFrom buf floor).Pairwise fun sc sc' => sc.payloadOffset + 3 ≤ sc'.payloadOffset := by
  fun_induction scanFrom buf floor with
  | case1 => simp
  | case2 floor sc h ih =>
      have hbounds := firstCode_bounds h
      refine ⟨?_, List.pairwise_cons.mpr ih⟩
      intro sc' hmem
      rcases List.mem_cons.mp hmem with rfl | hmem
      · exact hbounds.2
      · have hlater := ih.1 sc' hmem
        omega

/-! ## A buffer without its front -/

theorem findStartCode_drop (seen : Bytes) (gone floor : Nat) :
    findStartCode (seen.drop gone) floor = (findStartCode seen (gone + floor)).map (· - gone) := by
  rw [findStartCode_eq_scan, findStartCode_eq_scan, List.drop_drop, Option.map_map]
  congr 1
  funext k
  simp only [Function.comp_apply]
  omega

theorem classify_drop (h : gone = 0 ∨ gone < i) (hle : gone ≤ i) :
    classify (seen.drop gone) (i - gone) =
      ⟨(classify seen i).offset - gone, (classify seen i).len⟩ := by
  rcases h with rfl | hlt
  · rfl
  · have hget : (seen.drop gone)[i - gone - 1]? = seen[i - 1]? := by
      rw [List.getElem?_drop]
      congr 1
      omega
    unfold classify
    simp only [hget, show 1 ≤ i - gone by omega, show 1 ≤ i by omega, true_and]
    split
    · simp only [StartCode.mk.injEq, and_true]
      omega
    · rfl

/-- On a buffer without its front the scanner does what it does on the whole. -/
theorem find_drop (hgone : gone ≤ seen.length)
    (hbehind : gone = 0 ∨ 1 ≤ max (floor - gone) s.scanned) :
    (s.find (seen.drop gone) (floor - gone)).1 =
        ((Scanner.mk (gone + s.scanned)).find seen floor).1.map
          (fun sc => ⟨sc.offset - gone, sc.len⟩) ∧
      gone + (s.find (seen.drop gone) (floor - gone)).2.scanned =
        ((Scanner.mk (gone + s.scanned)).find seen floor).2.scanned ∧
      ∀ sc, ((Scanner.mk (gone + s.scanned)).find seen floor).1 = some sc → gone ≤ sc.offset := by
  have hfirst : max floor (gone + s.scanned) = gone + max (floor - gone) s.scanned := by omega
  simp only [Scanner.find, findStartCode_drop, hfirst]
  cases hfound : findStartCode seen (gone + max (floor - gone) s.scanned) with
  | none =>
      refine ⟨rfl, ?_, fun sc hsc => by cases hsc⟩
      simp only [Option.map_none, List.length_drop]
      split <;> split <;> dsimp only <;> omega
  | some i =>
      have hbounds := findStartCode_bounds hfound
      refine ⟨?_, ?_, ?_⟩
      · simp only [Option.map_some]
        rw [classify_drop (by omega) (by omega)]
      · simp only [Option.map_some]
        omega
      · rintro sc ⟨⟩
        rw [classify]
        split <;> dsimp only <;> omega

/-! ## The stream and its buffer -/

/-- A buffer at the end of which a stream arrives, and what was reported of it. -/
structure Feed where
  seen : Bytes
  buf : Bytes
  gone : Nat
  scanner : Scanner
  floor : Nat
  reported : List StartCode

/-- Where the bytes behind the last start code begin in the whole. -/
def lastPayload (reported : List StartCode) : Nat :=
  (reported.getLast?.map StartCode.payloadOffset).getD 0

@[simp]
theorem lastPayload_concat (reported : List StartCode) (sc : StartCode) :
    lastPayload (reported ++ [sc]) = sc.payloadOffset := by
  simp [lastPayload]

namespace Feed

/-- Nothing has arrived. -/
def new : Feed where
  seen := []
  buf := []
  gone := 0
  scanner := Scanner.new
  floor := 0
  reported := []

/-- A chunk arrives. -/
def push (f : Feed) (chunk : Bytes) : Feed :=
  { f with seen := f.seen ++ chunk, buf := f.buf ++ chunk }

/-- Bytes that may be taken off the front: those before the last start code or the mark. -/
def MayTake (f : Feed) (n : Nat) : Prop :=
  (∃ sc ∈ f.reported.getLast?, f.gone + n ≤ sc.offset) ∨ n ≤ f.scanner.scanned - 1

/-- Take bytes off the front of the buffer. -/
def take (f : Feed) (n : Nat) : Feed :=
  { f with
    buf := f.buf.drop n
    gone := f.gone + n
    scanner := f.scanner.consume n
    floor := f.floor - n }

/-- Ask for the next start code behind the last one. -/
def find (f : Feed) : Feed :=
  match f.scanner.find f.buf f.floor with
  | (none, s) => { f with scanner := s }
  | (some sc, s) =>
      { f with
        scanner := s
        floor := sc.payloadOffset
        reported := f.reported ++ [⟨sc.offset + f.gone, sc.len⟩] }

@[simp]
theorem seen_push (f : Feed) (chunk : Bytes) : (f.push chunk).seen = f.seen ++ chunk :=
  rfl

@[simp]
theorem seen_find (f : Feed) : f.find.seen = f.seen := by
  unfold Feed.find
  split <;> rfl

inductive Reached : Feed → Prop
  | new : Reached new
  | push {f : Feed} (chunk : Bytes) (h : Reached f) : Reached (f.push chunk)
  | take {f : Feed} {n : Nat} (hmay : f.MayTake n) (h : Reached f) : Reached (f.take n)
  | find {f : Feed} (h : Reached f) : Reached f.find

/-- The buffer is the end of the whole, and what was reported is what a scan of the whole finds
first. -/
structure Inv (f : Feed) : Prop where
  buf_eq : f.buf = f.seen.drop f.gone
  gone_le : f.gone ≤ f.seen.length
  last_le : lastPayload f.reported ≤ f.seen.length
  floor_eq : f.floor = lastPayload f.reported - f.gone
  rules : (Scanner.mk (f.gone + f.scanner.scanned)).Rules f.seen (lastPayload f.reported)
  behind : f.gone = 0 ∨ 1 ≤ max f.floor f.scanner.scanned
  len : ∀ sc ∈ f.reported, 3 ≤ sc.len
  scan : ∀ more, f.reported ++ scanFrom (f.seen ++ more) (lastPayload f.reported) =
    scanFrom (f.seen ++ more) 0

variable {f : Feed}

theorem inv_new : new.Inv where
  buf_eq := rfl
  gone_le := Nat.le_refl 0
  last_le := Nat.le_refl 0
  floor_eq := rfl
  rules := Scanner.rules_of_le (Nat.le_refl 0)
  behind := Or.inl rfl
  len := nofun
  scan _ := rfl

theorem Inv.push (h : f.Inv) (chunk : Bytes) : (f.push chunk).Inv where
  buf_eq := by
    rw [Feed.push]
    dsimp only
    rw [h.buf_eq, List.drop_append_of_le_length h.gone_le]
  gone_le := by
    have hle := h.gone_le
    rw [Feed.push, List.length_append]
    exact Nat.le_add_right_of_le hle
  last_le := by
    rw [Feed.push, List.length_append]
    exact Nat.le_add_right_of_le h.last_le
  floor_eq := h.floor_eq
  rules := h.rules.append chunk
  behind := h.behind
  len := h.len
  scan more := by
    rw [Feed.push, List.append_assoc]
    exact h.scan (chunk ++ more)

/-- The byte in front of the place where the next search begins stays. -/
theorem Inv.take (h : f.Inv) (hmay : f.MayTake n) : (f.take n).Inv := by
  have hplaces : (f.gone + n ≤ lastPayload f.reported ∧ f.gone + n + 1 ≤ lastPayload f.reported) ∨
      n ≤ f.scanner.scanned - 1 := by
    rcases hmay with ⟨sc, hlast, hle⟩ | hle
    · have hlen := h.len sc (List.mem_of_getLast? hlast)
      rw [lastPayload, hlast, Option.map_some, Option.getD_some, StartCode.payloadOffset]
      omega
    · exact Or.inr hle
  have hmark : f.gone + f.scanner.scanned ≤ f.seen.length ∨
      f.gone + f.scanner.scanned ≤ lastPayload f.reported := by
    by_contra hfar
    have hrules := h.rules (f.gone + f.scanner.scanned - 1) (by omega) (by dsimp only; omega)
    omega
  have hlast := h.last_le
  have hfloor := h.floor_eq
  have hgone := h.gone_le
  refine ⟨?_, ?_, h.last_le, ?_, ?_, ?_, h.len, h.scan⟩
  · rw [Feed.take]
    dsimp only
    rw [h.buf_eq, List.drop_drop]
  · simp only [Feed.take]
    omega
  · simp only [Feed.take]
    omega
  · intro j hj hlt
    simp only [Feed.take, Scanner.consume] at hj hlt
    exact h.rules j hj (by dsimp only; omega)
  · have hbehind := h.behind
    simp only [Feed.take, Scanner.consume]
    omega

theorem Inv.find_whole (h : f.Inv) :
    (f.scanner.find f.buf f.floor).1 = (firstCode f.seen (lastPayload f.reported)).map
        (fun sc => ⟨sc.offset - f.gone, sc.len⟩) ∧
      (∀ sc, firstCode f.seen (lastPayload f.reported) = some sc → f.gone ≤ sc.offset) ∧
      (Scanner.mk (f.gone + (f.scanner.find f.buf f.floor).2.scanned)).Rules f.seen
        (lastPayload f.reported) ∧
      f.scanner.scanned ≤ (f.scanner.find f.buf f.floor).2.scanned := by
  have hbehind := h.behind
  rw [h.floor_eq] at hbehind
  rcases find_drop h.gone_le hbehind with ⟨hcode, hmark, hle⟩
  rcases h.rules.find with ⟨hfirst, hrules⟩
  have hrules' : (Scanner.mk ((Scanner.mk (f.gone + f.scanner.scanned)).find f.seen
      (lastPayload f.reported)).2.scanned).Rules f.seen (lastPayload f.reported) := hrules
  rw [hfirst] at hcode hle
  rw [← hmark] at hrules'
  rw [← h.floor_eq, ← h.buf_eq] at hcode hrules'
  exact ⟨hcode, hle, hrules', Scanner.scanned_le_find⟩

/-- What a request reports is what the scan of the whole finds next. -/
theorem Inv.find (h : f.Inv) : f.find.Inv ∧
    (firstCode f.seen (lastPayload f.reported) = none → f.find.reported = f.reported) ∧
    ∀ sc, firstCode f.seen (lastPayload f.reported) = some sc →
      f.find.reported = f.reported ++ [sc] := by
  rcases h.find_whole with ⟨hcode, hoffset, hrules, hscanned⟩
  have hgone := h.gone_le
  have hfloor := h.floor_eq
  unfold Feed.find
  cases hfound : f.scanner.find f.buf f.floor with
  | mk r s =>
      rw [hfound] at hcode hrules hscanned
      cases hwhole : firstCode f.seen (lastPayload f.reported) with
      | none =>
          rw [hwhole] at hcode
          cases hcode
          refine ⟨⟨h.buf_eq, h.gone_le, h.last_le, h.floor_eq, hrules, ?_, h.len, h.scan⟩,
            fun _ => rfl, nofun⟩
          have hbehind := h.behind
          dsimp only at hscanned ⊢
          omega
      | some sc =>
          have hbounds := firstCode_bounds hwhole
          have hlen := three_le_len hwhole
          have hle := hoffset sc hwhole
          rw [hwhole] at hcode
          cases hcode
          have hback : sc.offset - f.gone + f.gone = sc.offset := Nat.sub_add_cancel hle
          simp only [hback]
          rw [StartCode.payloadOffset] at hbounds
          refine ⟨⟨h.buf_eq, h.gone_le, ?_, ?_, ?_, ?_, ?_, ?_⟩, nofun, ?_⟩
          · rw [lastPayload_concat]
            exact hbounds.1
          · rw [lastPayload_concat, StartCode.payloadOffset, StartCode.payloadOffset]
            dsimp only
            omega
          · intro j hj hlt
            rw [lastPayload_concat, StartCode.payloadOffset] at hj
            dsimp only at hj
            exact hrules j (by omega) hlt
          · rw [StartCode.payloadOffset]
            dsimp only
            omega
          · intro sc' hmem
            rcases List.mem_append.mp hmem with hmem | hmem
            · exact h.len sc' hmem
            · rw [List.mem_singleton.mp hmem]
              exact hlen
          · intro more
            rw [lastPayload_concat, List.append_assoc, List.singleton_append,
              ← scanFrom_of_some (firstCode_append hwhole more)]
            exact h.scan more
          · rintro sc' ⟨⟩
            rfl

theorem Reached.inv (h : Reached f) : f.Inv := by
  induction h with
  | new => exact inv_new
  | push chunk _ ih => exact ih.push chunk
  | take hmay _ ih => exact ih.take hmay
  | find _ ih => exact ih.find.1

theorem Inv.find_none_iff (h : f.Inv) :
    (f.scanner.find f.buf f.floor).1 = none ↔
      firstCode f.seen (lastPayload f.reported) = none := by
  rw [h.find_whole.1, Option.map_eq_none_iff]

theorem Inv.drains (h : f.Inv) :
    ∃ n, (Feed.find^[n] f).Inv ∧ (Feed.find^[n] f).seen = f.seen ∧
      firstCode f.seen (lastPayload (Feed.find^[n] f).reported) = none := by
  generalize hleft : f.seen.length - lastPayload f.reported = left
  induction left using Nat.strong_induction_on generalizing f with
  | h left ih =>
      cases hfirst : firstCode f.seen (lastPayload f.reported) with
      | none => exact ⟨0, h, rfl, hfirst⟩
      | some sc =>
          rcases h.find with ⟨hinv, -, hreported⟩
          have hbounds := firstCode_bounds hfirst
          have hseen := f.seen_find
          have hlast : lastPayload f.find.reported = sc.payloadOffset := by
            rw [hreported sc hfirst, lastPayload_concat]
          have hless : f.find.seen.length - lastPayload f.find.reported < left := by
            rw [hseen, hlast]
            omega
          rcases ih _ hless hinv rfl with ⟨n, hrest⟩
          rw [hseen] at hrest
          exact ⟨n + 1, hrest⟩

end Feed

/-- Whatever the chunks, the first start codes of the scan of the whole are reported, each once; all
of them when a request finds nothing, which requests come to. -/
theorem chunked_scan_eq_whole (f : Feed) (h : f.Reached) :
    f.reported <+: scanFrom f.seen 0 ∧
      ((f.scanner.find f.buf f.floor).1 = none → f.reported = scanFrom f.seen 0) ∧
      (∃ n, (Feed.find^[n] f).reported = scanFrom f.seen 0) ∧
      (scanFrom f.seen 0).Pairwise fun sc sc' => sc.payloadOffset < sc'.payloadOffset := by
  have hinv := h.inv
  have hscan := hinv.scan []
  rw [List.append_nil] at hscan
  refine ⟨⟨_, hscan⟩, ?_, ?_, ?_⟩
  · intro hnone
    rwa [scanFrom_of_none (hinv.find_none_iff.mp hnone), List.append_nil] at hscan
  · rcases hinv.drains with ⟨n, hdrained, hseen, hnone⟩
    have hrest := hdrained.scan []
    rw [hseen, List.append_nil, scanFrom_of_none hnone, List.append_nil] at hrest
    exact ⟨n, hrest⟩
  · refine (scanFrom_sorted f.seen 0).2.imp ?_
    intro sc sc' hlater
    omega

/-- A start code that is split between two chunks, with a request between them. -/
theorem chunked_scan_split :
    ∃ n, (Feed.find^[n] (((Feed.new.push [0xAA#8, 0, 0]).find).push [1])).reported =
      [⟨1, 3⟩] := by
  have hfirst : firstCode [0xAA#8, 0, 0, 1] 0 = some ⟨1, 3⟩ := by
    rw [firstCode, findStartCode_eq_scan]
    rfl
  have hnone : firstCode [0xAA#8, 0, 0, 1] (StartCode.payloadOffset ⟨1, 3⟩) = none := by
    rw [firstCode, findStartCode_eq_scan]
    rfl
  have hrun := (chunked_scan_eq_whole _ (.push [1] (.find (.push [0xAA#8, 0, 0] .new)))).2.2.1
  simp only [Feed.seen_push, Feed.seen_find] at hrun
  have hscan : scanFrom [0xAA#8, 0, 0, 1] 0 = [⟨1, 3⟩] := by
    rw [scanFrom_of_some hfirst, scanFrom_of_none hnone]
  exact hscan ▸ hrun

end Bitstream
end Vaco
