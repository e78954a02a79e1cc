import Vaco.Bitstream.BitWriter
import Vaco.Bitstream.Escaping

/-!
# The byte stream format

NAL units stand one after the other, each behind a start code of three or four bytes.
The iterator cuts a buffer at the start codes, trims the zeros at the end of each unit
and passes over empty units.

Main results:

- `collect_frame`: framed units are found again.
- `annexB_round_trip`: framing escaped payloads round-trips.
-/

namespace Vaco
namespace Bitstream

open Library BitStream

/-- The last position at which a predicate holds. -/
def rposition (p : BitVec 8 → Bool) (bytes : Bytes) : Option Nat :=
  (bytes.reverse.findIdx? p).map (bytes.length - 1 - ·)

/-- A unit without the zeros at its end. -/
def trimTrailingZeros (unit : Bytes) : Bytes :=
  match rposition (· ≠ 0) unit with
  | some last => unit.take (last + 1)
  | none => []

/-- An iterator over NAL units, with the start of the current payload. -/
structure NalIter where
  buf : Bytes
  next : Option Nat

/-- Iterate the NAL units of a byte stream. -/
def nalUnits (buf : Bytes) : NalIter where
  buf := buf
  next := (findStartCode buf 0).map (· + 3)

namespace NalIter

def nextFrom (buf : Bytes) (start : Nat) : Option Bytes × Option Nat :=
  match hfound : findStartCode buf start with
  | some code =>
      let trimmed := trimTrailingZeros ((buf.take code).drop start)
      if trimmed.isEmpty then nextFrom buf (code + 3) else (some trimmed, some (code + 3))
  | none =>
      let trimmed := trimTrailingZeros (buf.drop start)
      (if trimmed.isEmpty then none else some trimmed, none)
termination_by buf.length - start
decreasing_by
  have hbounds := findStartCode_bounds hfound
  omega

/-- Take the next unit. -/
def nextUnit (iter : NalIter) : Option Bytes × NalIter :=
  match iter.next with
  | none => (none, iter)
  | some start =>
      let taken := nextFrom iter.buf start
      (taken.1, { iter with next := taken.2 })

/-- Bytes left to the iterator, counting the end of the buffer. -/
def left (iter : NalIter) : Nat :=
  match iter.next with
  | none => 0
  | some start => iter.buf.length - start + 1

theorem lt_of_nextFrom {buf : Bytes} {start after : Nat}
    (h : (nextFrom buf start).2 = some after) : start < after ∧ after ≤ buf.length := by
  fun_induction nextFrom buf start with
  | case1 start code hfound trimmed hempty ih =>
      have hbounds := findStartCode_bounds hfound
      have hlater := ih h
      omega
  | case2 start code hfound trimmed hempty =>
      have hbounds := findStartCode_bounds hfound
      have hafter : code + 3 = after := Option.some.inj h
      omega
  | case3 start hfound trimmed => cases h

theorem left_nextUnit {iter : NalIter} {unit : Bytes} (h : iter.nextUnit.1 = some unit) :
    iter.nextUnit.2.left < iter.left := by
  rcases iter with ⟨buf, _ | start⟩
  · cases h
  · have hstep : (nextUnit ⟨buf, some start⟩).2 = ⟨buf, (nextFrom buf start).2⟩ := rfl
    rw [hstep]
    cases hafter : (nextFrom buf start).2 with
    | none => exact Nat.succ_pos _
    | some after =>
        have hlt := lt_of_nextFrom hafter
        show buf.length - after + 1 < buf.length - start + 1
        omega

/-- All units the iterator yields. -/
def collect (iter : NalIter) : List Bytes :=
  match _ : iter.nextUnit.1 with
  | some unit => unit :: collect iter.nextUnit.2
  | none => []
termination_by iter.left
decreasing_by exact left_nextUnit (by assumption)

end NalIter

/-! ## Framed units -/

/-- Bytes that are there and do not end in a zero. -/
def Terminated (bytes : Bytes) : Prop :=
  ∃ last, bytes.getLast? = some last ∧ last ≠ 0

/-- A start code of three or of four bytes. -/
def startCode (long : Bool) : Bytes :=
  if long then [0, 0, 0, 1] else [0, 0, 1]

/-- Units behind their start codes, one after the other. -/
def frame : List (Bool × Bytes) → Bytes
  | [] => []
  | (long, unit) :: rest => startCode long ++ (unit ++ frame rest)

variable {unit : Bytes}

theorem Terminated.isEmpty (h : Terminated unit) : unit.isEmpty = false := by
  rcases h with ⟨last, hlast, _⟩
  cases unit with
  | nil => cases hlast
  | cons b rest => rfl

theorem Terminated.getLast?_ne (h : Terminated unit) : unit.getLast? ≠ some 0 := by
  rcases h with ⟨last, hlast, hne⟩
  rw [hlast]
  exact fun hzero => hne (Option.some.inj hzero)

theorem trimTrailingZeros_append (h : Terminated unit) (n : Nat) :
    trimTrailingZeros (unit ++ List.replicate n 0) = unit := by
  rcases h with ⟨last, hlast, hne⟩
  rcases List.getLast?_eq_some_iff.mp hlast with ⟨front, rfl⟩
  have hposition : rposition (· ≠ 0) (front ++ [last] ++ List.replicate n 0) =
      some front.length := by
    have hzeros : (List.replicate n (0 : BitVec 8)).findIdx? (· ≠ 0) = none := by
      rw [List.findIdx?_eq_none_iff]
      intro b hb
      rw [List.eq_of_mem_replicate hb]
      rfl
    have hlast : last ≠ 0#8 := hne
    rw [rposition, List.reverse_append, List.reverse_append, List.reverse_replicate,
      List.findIdx?_append, hzeros]
    simp [List.findIdx?_cons, hlast]
  rw [trimTrailingZeros, hposition]
  simp [List.take_append]

theorem scan_startCode (long : Bool) (rest : Bytes) :
    scan (startCode long ++ rest) = some long.toNat := by
  cases long <;> rfl

theorem length_startCode (long : Bool) : (startCode long).length = long.toNat + 3 := by
  cases long <;> rfl

namespace NalIter

/-- In front of framed units, the iterator takes a unit and stops behind the next start
code. -/
theorem nextFrom_frame (hscan : scan unit = none) (h : Terminated unit) (before : Bytes)
    (units : List (Bool × Bytes)) :
    nextFrom (before ++ (unit ++ frame units)) before.length =
      (some unit, units.head?.map fun first =>
        (before ++ unit ++ startCode first.1).length) := by
  have hfind := findStartCode_eq_scan (before ++ (unit ++ frame units)) before.length
  rw [List.drop_left, scan_append hscan h.getLast?_ne] at hfind
  have htrimmed := trimTrailingZeros_append h
  cases units with
  | nil =>
      have hunit : trimTrailingZeros unit = unit := by simpa using htrimmed 0
      rw [nextFrom]
      split
      · rename_i code hfound
        rw [hfind] at hfound
        cases hfound
      · simp [frame, hunit, h.isEmpty]
  | cons first rest =>
      rcases first with ⟨long, next⟩
      rw [nextFrom]
      split
      · rename_i code hfound
        rw [hfind, frame, scan_startCode] at hfound
        have hcode : long.toNat + unit.length + before.length = code := Option.some.inj hfound
        have hcut : ((before ++ (unit ++ frame ((long, next) :: rest))).take code).drop
            before.length = unit ++ List.replicate long.toNat 0 := by
          have hsplit : before ++ (unit ++ frame ((long, next) :: rest)) =
              (before ++ (unit ++ List.replicate long.toNat 0)) ++
                ([0, 0, 1] ++ (next ++ frame rest)) := by
            cases long <;> simp [frame, startCode]
          rw [hsplit, List.take_left' (by simp; omega), List.drop_left]
        have hafter : code + 3 = (before ++ unit ++ startCode long).length := by
          rw [List.length_append, List.length_append, length_startCode]
          omega
        simp only [hcut, htrimmed, h.isEmpty, hafter]
        rfl
      · rename_i hfound
        rw [hfind, frame, scan_startCode] at hfound
        cases hfound

theorem collect_of_nextFrom {buf : Bytes} {start : Nat} {after : Option Nat}
    (h : nextFrom buf start = (some unit, after)) :
    collect ⟨buf, some start⟩ = unit :: collect ⟨buf, after⟩ := by
  have hstep : nextUnit ⟨buf, some start⟩ = (some unit, ⟨buf, after⟩) := by
    simp [nextUnit, h]
  rw [collect]
  split
  · rename_i taken htaken
    rw [hstep] at htaken ⊢
    rw [Option.some.inj htaken]
  · rename_i htaken
    rw [hstep] at htaken
    cases htaken

theorem collect_none (buf : Bytes) : collect ⟨buf, none⟩ = [] := by
  rw [collect]
  rfl

theorem collect_framed {units : List (Bool × Bytes)} (before : Bytes)
    (hscan : scan unit = none) (h : Terminated unit)
    (hunits : ∀ framed ∈ units, scan framed.2 = none ∧ Terminated framed.2) :
    collect ⟨before ++ (unit ++ frame units), some before.length⟩ =
      unit :: units.map Prod.snd := by
  induction units generalizing before unit with
  | nil => rw [collect_of_nextFrom (nextFrom_frame hscan h before []), List.head?_nil,
      Option.map_none, collect_none, List.map_nil]
  | cons first rest ih =>
      have hfirst := hunits first List.mem_cons_self
      have hrest := ih (before ++ unit ++ startCode first.1) hfirst.1 hfirst.2
        fun framed hframed => hunits framed (List.mem_cons_of_mem _ hframed)
      rw [collect_of_nextFrom (nextFrom_frame hscan h before _), List.head?_cons,
        Option.map_some, List.map_cons, ← hrest]
      simp [frame]

/-- The iterator gives back units that hold no start code and do not end in a zero. -/
theorem collect_frame {units : List (Bool × Bytes)}
    (hunits : ∀ framed ∈ units, scan framed.2 = none ∧ Terminated framed.2) :
    (nalUnits (frame units)).collect = units.map Prod.snd := by
  have hfind := findStartCode_eq_scan (frame units) 0
  rw [List.drop_zero] at hfind
  cases units with
  | nil =>
      have hnone : findStartCode [] 0 = none := hfind
      rw [nalUnits, frame, hnone, Option.map_none, collect_none, List.map_nil]
  | cons first rest =>
      have hfirst := hunits first List.mem_cons_self
      have hframed := collect_framed (startCode first.1) hfirst.1 hfirst.2
        fun framed hframed => hunits framed (List.mem_cons_of_mem _ hframed)
      rw [frame, scan_startCode] at hfind
      rw [nalUnits, frame, hfind, List.map_cons, ← hframed, length_startCode]
      rfl

end NalIter

/-! ## What is cut out -/

theorem startsCode_of_prefix {a b : Bytes} (h : a <+: b) (ha : startsCode a = true) :
    startsCode b = true := by
  rcases h with ⟨rest, rfl⟩
  match a, ha with
  | _ :: _ :: _ :: _, ha => exact ha

theorem trimTrailingZeros_spec (unit : Bytes) :
    trimTrailingZeros unit <+: unit ∧
      ((trimTrailingZeros unit).isEmpty = false → Terminated (trimTrailingZeros unit)) := by
  unfold trimTrailingZeros
  cases hlast : rposition (· ≠ 0) unit with
  | none => exact ⟨List.nil_prefix, nofun⟩
  | some last =>
      refine ⟨List.take_prefix _ _, fun _ => ?_⟩
      rw [rposition, Option.map_eq_some_iff] at hlast
      rcases hlast with ⟨i, hi, rfl⟩
      rw [List.findIdx?_eq_some_iff_getElem] at hi
      rcases hi with ⟨hlt, hne, -⟩
      rw [List.length_reverse] at hlt
      rw [List.getElem_reverse] at hne
      refine ⟨unit[unit.length - 1 - i], ?_, of_decide_eq_true hne⟩
      rw [List.getLast?_eq_getElem?, List.length_take, Nat.min_eq_left (by omega),
        Nat.add_sub_cancel, List.getElem?_take_of_lt (by omega), List.getElem?_eq_getElem]

namespace NalIter

variable {buf : Bytes} {start : Nat}

theorem scan_of_initial {stop : Nat} (hunit : unit <+: (buf.take stop).drop start)
    (hnone : ∀ j, start ≤ j → j < stop → startsCode (buf.drop j) = false) :
    scan unit = none := by
  rw [scan_eq_none_iff]
  intro k
  by_contra hcode
  rw [Bool.not_eq_false] at hcode
  have hstretch : startsCode ((buf.take stop).drop (start + k)) = true := by
    rw [← List.drop_drop]
    exact startsCode_of_prefix (hunit.drop k) hcode
  have hinside : start + k < stop := by
    by_contra hge
    rw [List.drop_eq_nil_of_le (by rw [List.length_take]; omega)] at hstretch
    cases hstretch
  have hwhole := startsCode_of_prefix ((List.take_prefix stop buf).drop (start + k)) hstretch
  rw [hnone _ (Nat.le_add_right _ _) hinside] at hwhole
  cases hwhole

/-- A unit that is taken holds no start code, does not end in a zero and ends before the next start
code. -/
theorem nextFrom_spec {after : Option Nat} (hstart : start ≤ buf.length)
    (h : nextFrom buf start = (some unit, after)) :
    scan unit = none ∧ Terminated unit ∧
      (∀ place ∈ after, start + unit.length + 3 ≤ place ∧ place ≤ buf.length) ∧
        start + unit.length ≤ buf.length := by
  fun_induction nextFrom buf start with
  | case1 start code hfound trimmed hempty ih =>
      have hbounds := findStartCode_bounds hfound
      rcases ih (by omega) h with ⟨hscan, hterm, hafter, hle⟩
      refine ⟨hscan, hterm, ?_, by omega⟩
      intro place hplace
      have hlater := hafter place hplace
      omega
  | case2 start code hfound trimmed hempty =>
      have hbounds := findStartCode_bounds hfound
      have hspec : trimmed <+: (buf.take code).drop start ∧
          (trimmed.isEmpty = false → Terminated trimmed) := trimTrailingZeros_spec _
      rcases hspec with ⟨hinit, hterm⟩
      have hlen := hinit.length_le
      rw [List.length_drop, List.length_take] at hlen
      have hnone := (findStartCode_eq_some_iff.mp hfound).2.2
      rw [Prod.mk.injEq, Option.some.injEq] at h
      rcases h with ⟨hunit, rfl⟩
      rw [← hunit]
      refine ⟨scan_of_initial hinit hnone, hterm (Bool.eq_false_iff.mpr hempty), ?_, ?_⟩
      · rintro place ⟨⟩
        omega
      · omega
  | case3 start hfound trimmed =>
      have hspec : trimmed <+: buf.drop start ∧
          (trimmed.isEmpty = false → Terminated trimmed) := trimTrailingZeros_spec _
      rcases hspec with ⟨hinit, hterm⟩
      have hlen := hinit.length_le
      rw [List.length_drop] at hlen
      have hnone := findStartCode_eq_none_iff.mp hfound
      rw [Prod.mk.injEq] at h
      rcases h with ⟨hunit, rfl⟩
      split at hunit
      · cases hunit
      · rename_i hempty
        rw [← Option.some.inj hunit]
        refine ⟨scan_of_initial (by rwa [List.take_length])
          fun j hj _ => hnone j hj, hterm (Bool.eq_false_iff.mpr hempty), nofun, by omega⟩

/-- The units of a buffer hold no start codes and do not end in zeros, and each takes three bytes
more than it has. -/
theorem collect_spec (iter : NalIter) (hstart : ∀ start ∈ iter.next, start ≤ iter.buf.length) :
    (∀ unit ∈ iter.collect, scan unit = none ∧ Terminated unit) ∧
      ∀ start ∈ iter.next,
        (iter.collect.map fun unit => unit.length + 3).sum + start ≤ iter.buf.length + 3 := by
  fun_induction collect iter with
  | case1 iter unit hunit ih =>
      rcases iter with ⟨buf, _ | start⟩
      · cases hunit
      · have hle : start ≤ buf.length := hstart start rfl
        rcases hnext : nextFrom buf start with ⟨unit', after⟩
        have hstep : (nextUnit ⟨buf, some start⟩) = (unit', ⟨buf, after⟩) := by
          rw [nextUnit]
          dsimp only
          rw [hnext]
        rw [hstep] at hunit ih ⊢
        cases hunit
        rcases nextFrom_spec hle hnext with ⟨hscan, hterm, hafter, hlen⟩
        rcases ih fun place hplace => (hafter place hplace).2 with ⟨hall, hsum⟩
        refine ⟨List.forall_mem_cons.mpr ⟨⟨hscan, hterm⟩, hall⟩, ?_⟩
        rintro start' ⟨⟩
        rw [List.map_cons, List.sum_cons]
        cases after with
        | none =>
            rw [collect_none]
            show unit.length + 3 + 0 + start ≤ buf.length + 3
            omega
        | some place =>
            have hplace := hafter place rfl
            have hrest := hsum place rfl
            dsimp only at hrest ⊢
            omega
  | case2 iter hunit =>
      refine ⟨nofun, fun start hnext => ?_⟩
      have hle := hstart start hnext
      simp only [List.map_nil, List.sum_nil]
      omega

theorem nalUnits_spec (buf : Bytes) :
    (∀ unit ∈ (nalUnits buf).collect, scan unit = none ∧ Terminated unit) ∧
      ((nalUnits buf).collect.map fun unit => unit.length + 3).sum ≤ buf.length := by
  cases hfound : findStartCode buf 0 with
  | none =>
      rw [nalUnits, hfound, Option.map_none, collect_none]
      exact ⟨nofun, Nat.zero_le _⟩
  | some i =>
      have hbounds := findStartCode_bounds hfound
      rcases collect_spec (nalUnits buf) (by
        rw [nalUnits, hfound]
        rintro start ⟨⟩
        exact hbounds.2) with ⟨hall, hsum⟩
      refine ⟨hall, ?_⟩
      have hfirst := hsum (i + 3) (by rw [nalUnits, hfound]; rfl)
      have hbuf : (nalUnits buf).buf.length = buf.length := rfl
      omega

end NalIter

/-! ## Escaped payloads -/

/-- A payload that ends in its trailing bits: it is there and does not end in a zero. -/
structure Rbsp where
  bytes : Bytes
  terminated : Terminated bytes

/-- The escaped payload, as it stands in the stream. -/
def Rbsp.ebsp (rbsp : Rbsp) : Bytes :=
  toEbsp rbsp.bytes []

theorem Rbsp.terminated_ebsp (rbsp : Rbsp) : Terminated rbsp.ebsp := by
  rcases rbsp.terminated with ⟨last, hlast, hne⟩
  exact ⟨last, (getLast?_toEbspLoop 0 rbsp.bytes).trans hlast, hne⟩

theorem nalUnits_framed (units : List (Bool × Rbsp)) :
    (nalUnits (frame (units.map fun u => (u.1, u.2.ebsp)))).collect =
      units.map fun u => u.2.ebsp := by
  have hunits : ∀ framed ∈ units.map fun u => (u.1, u.2.ebsp),
      scan framed.2 = none ∧ Terminated framed.2 := by
    intro framed hframed
    rcases List.mem_map.mp hframed with ⟨u, _, rfl⟩
    exact ⟨scan_toEbsp u.2.bytes, u.2.terminated_ebsp⟩
  rw [NalIter.collect_frame hunits, List.map_map]
  rfl

/-- Behind start codes of either length escaped payloads come back in order, and whatever is escaped
holds no two zeros followed by a byte of at most two. -/
theorem annexB_round_trip (units : List (Bool × Rbsp)) :
    (nalUnits (frame (units.map fun u => (u.1, toEbsp u.2.bytes [])))).collect =
        units.map (fun u => toEbsp u.2.bytes []) ∧
      (∀ u ∈ units, toRbsp (toEbsp u.2.bytes []) = u.2.bytes) ∧
      ∀ rbsp out last, last ≤ 2 →
        ¬ [0, 0, last] <:+: (toEbsp rbsp out).drop out.length := by
  refine ⟨nalUnits_framed units, fun u _ => toRbsp_toEbsp u.2.bytes, ?_⟩
  intro rbsp out last hlast hinfix
  have hdrop : (toEbsp rbsp out).drop out.length = toEbsp rbsp [] := List.drop_left
  have hviolates := violatesEbspConstraint_iff.mpr ⟨last, hlast, hdrop ▸ hinfix⟩
  rw [violatesEbspConstraint_toEbsp] at hviolates
  cases hviolates

/-- A unit with a start code inside it and one behind it. -/
theorem annexB_round_trip_two :
    (nalUnits [0, 0, 0, 1, 0x67, 0, 0, 3, 1, 0x80, 0, 0, 1, 0x68, 0x80]).collect =
        [[0x67, 0, 0, 3, 1, 0x80], [0x68, 0x80]] ∧
      toRbsp [0x67, 0, 0, 3, 1, 0x80] = [0x67, 0, 0, 1, 0x80] := by
  rcases annexB_round_trip [(true, ⟨[0x67, 0, 0, 1, 0x80], 0x80, rfl, by decide⟩),
    (false, ⟨[0x68, 0x80], 0x80, rfl, by decide⟩)] with ⟨hunits, hback, -⟩
  exact ⟨hunits, hback _ List.mem_cons_self⟩

end Bitstream
end Vaco
