import Mathlib.Tactic

/-!
# Timed logs and swept intervals

Two notions that receivers of numbered packets share.  A timed log is a list of
calls whose times do not decrease, each an arrival of a number or a tick; what
a receiver decides is read off the log: the payload that arrived last for a
number and the first arrival beyond it.  A swept interval is an interval
of numbers that a front passes in order, every number being either taken or
skipped.

Main results:

- `findSome?_earlier`: the first hit of a wider question is not later than the first hit of a
  narrower one.
- `firstBeyond_mono`: a smaller number is first missing no later than a larger one.
- `Swept.extend`: a swept interval grows at its upper end.
- `Swept.taken_or_skipped`: every number of a swept interval is taken or skipped, and no other
  number is.
-/

namespace Vaco
namespace Library
namespace Timeline

universe u v w

section Log

variable {α : Type u} {β : Type v} {γ : Type w}

/-- In a log in order, a question that `f` answers wherever `g` does is answered first, and not
later. -/
theorem findSome?_earlier {log : List α} {time : α → ℕ}
    (hsorted : log.Pairwise fun c d => time c ≤ time d)
    {f : α → Option β} {g : α → Option γ} {timeF : β → ℕ} {timeG : γ → ℕ}
    (hf : ∀ c b, f c = some b → timeF b = time c)
    (hg : ∀ c b, g c = some b → timeG b = time c)
    (hsub : ∀ c, (g c).isSome → (f c).isSome) {b : γ} (h : log.findSome? g = some b) :
    ∃ a, log.findSome? f = some a ∧ timeF a ≤ timeG b := by
  induction log with
  | nil => simp at h
  | cons c log ih =>
    rcases List.pairwise_cons.mp hsorted with ⟨hhead, htail⟩
    rcases hfc : f c with _ | a
    · have hgc : g c = none := by
        by_contra hne
        have hsome := hsub c (Option.isSome_iff_ne_none.mpr hne)
        rw [hfc] at hsome
        exact absurd hsome (by simp)
      rw [List.findSome?_cons, hgc] at h
      rw [List.findSome?_cons, hfc]
      exact ih htail h
    · refine ⟨a, by rw [List.findSome?_cons, hfc], ?_⟩
      rw [hf c a hfc]
      rcases hgc : g c with _ | b'
      · rw [List.findSome?_cons, hgc] at h
        rcases List.exists_of_findSome?_eq_some h with ⟨d, hd, hgd⟩
        rw [hg d b hgd]
        exact hhead d hd
      · rw [List.findSome?_cons, hgc] at h
        obtain rfl := Option.some.inj h
        rw [hg c b' hgc]

end Log

section Calls

variable {π : Type u}

/-- A call of a driver on a receiver: an arrival of a number, or a tick. -/
inductive Call (π : Type u) where
  | arrival (seqNo : ℕ) (payload : π) (nowMs : ℕ)
  | tick (nowMs : ℕ)
  deriving DecidableEq, Repr

namespace Call

/-- The time of a call. -/
def time : Call π → ℕ
  | .arrival _ _ nowMs => nowMs
  | .tick nowMs => nowMs

/-- The payload a call brings for number `k`. -/
def payloadFor (k : ℕ) : Call π → Option π
  | .arrival seqNo payload _ => if seqNo = k then some payload else none
  | .tick _ => none

def beyond (k : ℕ) : Call π → Option ℕ
  | .arrival seqNo _ nowMs => if k < seqNo then some nowMs else none
  | .tick _ => none

/-- The number and time of a call that brings a number not before `first`. -/
def notBefore (first : ℕ) : Call π → Option (ℕ × ℕ)
  | .arrival seqNo _ nowMs => if first ≤ seqNo then some (seqNo, nowMs) else none
  | .tick _ => none

theorem payloadFor_eq_some {k : ℕ} {call : Call π} {payload : π} :
    call.payloadFor k = some payload ↔ ∃ nowMs, call = .arrival k payload nowMs := by
  rcases call with ⟨seqNo, payload', nowMs⟩ | nowMs
  · by_cases hk : seqNo = k
    · simp [payloadFor, hk]
    · simp [payloadFor, hk]
  · simp [payloadFor]

theorem beyond_eq_some {k nowMs : ℕ} {call : Call π} :
    call.beyond k = some nowMs ↔ ∃ seqNo payload, call = .arrival seqNo payload nowMs ∧ k < seqNo := by
  rcases call with ⟨seqNo, payload, time⟩ | time
  · by_cases hk : k < seqNo
    · simp [beyond, hk]
    · simp [beyond, hk]
  · simp [beyond]

theorem notBefore_eq_some {first : ℕ} {found : ℕ × ℕ} {call : Call π} :
    call.notBefore first = some found ↔
      ∃ payload, call = .arrival found.1 payload found.2 ∧ first ≤ found.1 := by
  rcases call with ⟨seqNo, payload, time⟩ | time
  · rcases found with ⟨opened, openedAt⟩
    by_cases hk : first ≤ seqNo
    · simp [notBefore, hk]
      omega
    · simp [notBefore, hk]
      omega
  · simp [notBefore]

end Call

/-- The payload that arrived last for number `k`. -/
def lastPayload (calls : List (Call π)) (k : ℕ) : Option π :=
  (calls.filterMap (Call.payloadFor k)).getLast?

/-- The time of the first arrival beyond `k`: when `k` was first
missing, unless it had arrived. -/
def firstBeyond (calls : List (Call π)) (k : ℕ) : Option ℕ :=
  calls.findSome? (Call.beyond k)

/-- The number and time of the first arrival that is not before the first
expected number. -/
def opening (calls : List (Call π)) (first : ℕ) : Option (ℕ × ℕ) :=
  calls.findSome? (Call.notBefore first)

/-- The numbers that arrive stay below a bound. -/
def Below (bound : ℕ) (calls : List (Call π)) : Prop :=
  ∀ seqNo payload nowMs, Call.arrival seqNo payload nowMs ∈ calls → seqNo < bound

/-- The calls a driver makes: times do not decrease and numbers stay below a
bound. -/
structure Driven (bound : ℕ) (calls : List (Call π)) : Prop where
  sorted : calls.Pairwise fun c d => c.time ≤ d.time
  bounded : Below bound calls

/-! ## Reading a log of calls -/

section Reading

variable (calls : List (Call π))

@[simp]
theorem lastPayload_append_tick (nowMs k : ℕ) :
    lastPayload (calls ++ [.tick nowMs]) k = lastPayload calls k := by
  simp [lastPayload, Call.payloadFor]

theorem lastPayload_append_arrival (seqNo : ℕ) (payload : π) (nowMs k : ℕ) :
    lastPayload (calls ++ [.arrival seqNo payload nowMs]) k =
      if seqNo = k then some payload else lastPayload calls k := by
  unfold lastPayload
  by_cases hk : seqNo = k
  · simp [Call.payloadFor, hk]
  · simp [Call.payloadFor, hk]

@[simp]
theorem firstBeyond_append_tick (nowMs k : ℕ) :
    firstBeyond (calls ++ [.tick nowMs]) k = firstBeyond calls k := by
  simp [firstBeyond, List.findSome?_append, Call.beyond]

theorem firstBeyond_append_arrival (seqNo : ℕ) (payload : π) (nowMs k : ℕ) :
    firstBeyond (calls ++ [.arrival seqNo payload nowMs]) k =
      (firstBeyond calls k).or (if k < seqNo then some nowMs else none) := by
  unfold firstBeyond
  rw [List.findSome?_append]
  by_cases hk : k < seqNo
  · simp [Call.beyond, hk]
  · simp [Call.beyond, hk]

@[simp]
theorem opening_append_tick (nowMs first : ℕ) :
    opening (calls ++ [.tick nowMs]) first = opening calls first := by
  simp [opening, List.findSome?_append, Call.notBefore]

theorem opening_append_arrival (seqNo : ℕ) (payload : π) (nowMs first : ℕ) :
    opening (calls ++ [.arrival seqNo payload nowMs]) first =
      (opening calls first).or (if first ≤ seqNo then some (seqNo, nowMs) else none) := by
  unfold opening
  rw [List.findSome?_append]
  by_cases hk : first ≤ seqNo
  · simp [Call.notBefore, hk]
  · simp [Call.notBefore, hk]

variable {calls}

theorem lastPayload_isSome {k : ℕ} :
    (lastPayload calls k).isSome ↔
      ∃ payload nowMs, Call.arrival k payload nowMs ∈ calls := by
  unfold lastPayload
  rw [List.getLast?_isSome, ne_eq, List.filterMap_eq_nil_iff]
  constructor
  · intro h
    push Not at h
    rcases h with ⟨call, hcall, hsome⟩
    rcases Option.ne_none_iff_exists'.mp hsome with ⟨payload, hpayload⟩
    rcases Call.payloadFor_eq_some.mp hpayload with ⟨nowMs, rfl⟩
    exact ⟨payload, nowMs, hcall⟩
  · rintro ⟨payload, nowMs, hmem⟩ h
    have hsome : Call.payloadFor k (.arrival k payload nowMs) = some payload :=
      Call.payloadFor_eq_some.mpr ⟨nowMs, rfl⟩
    rw [h _ hmem] at hsome
    exact absurd hsome (by simp)

theorem lastPayload_some_mem {k : ℕ} {payload : π} (h : lastPayload calls k = some payload) :
    ∃ nowMs, Call.arrival k payload nowMs ∈ calls := by
  rcases List.mem_filterMap.mp (List.mem_of_getLast? h) with ⟨call, hcall, hsome⟩
  rcases Call.payloadFor_eq_some.mp hsome with ⟨nowMs, rfl⟩
  exact ⟨nowMs, hcall⟩

theorem firstBeyond_some_mem {k nowMs : ℕ} (h : firstBeyond calls k = some nowMs) :
    ∃ seqNo payload, Call.arrival seqNo payload nowMs ∈ calls ∧ k < seqNo := by
  rcases List.exists_of_findSome?_eq_some h with ⟨call, hcall, hsome⟩
  rcases Call.beyond_eq_some.mp hsome with ⟨seqNo, payload, rfl, hk⟩
  exact ⟨seqNo, payload, hcall, hk⟩

theorem firstBeyond_none {k : ℕ} :
    firstBeyond calls k = none ↔
      ∀ seqNo payload nowMs, Call.arrival seqNo payload nowMs ∈ calls → seqNo ≤ k := by
  unfold firstBeyond
  rw [List.findSome?_eq_none_iff]
  constructor
  · intro h seqNo payload nowMs hmem
    have hnone := h _ hmem
    by_contra hlt
    rw [Call.beyond_eq_some.mpr ⟨seqNo, payload, rfl, not_le.mp hlt⟩] at hnone
    exact absurd hnone (by simp)
  · intro h call hmem
    by_contra hne
    rcases Option.ne_none_iff_exists'.mp hne with ⟨nowMs, hsome⟩
    rcases Call.beyond_eq_some.mp hsome with ⟨seqNo, payload, rfl, hk⟩
    have hle := h seqNo payload nowMs hmem
    omega

theorem opening_some_mem {first opened openedAt : ℕ}
    (h : opening calls first = some (opened, openedAt)) :
    first ≤ opened ∧ ∃ payload, Call.arrival opened payload openedAt ∈ calls := by
  rcases List.exists_of_findSome?_eq_some h with ⟨call, hcall, hsome⟩
  rcases Call.notBefore_eq_some.mp hsome with ⟨payload, rfl, hfirst⟩
  exact ⟨hfirst, payload, hcall⟩

theorem opening_none {first : ℕ} (h : opening calls first = none) {seqNo : ℕ}
    {payload : π} {nowMs : ℕ} (hmem : Call.arrival seqNo payload nowMs ∈ calls) :
    seqNo < first := by
  have hnone := List.findSome?_eq_none_iff.mp h _ hmem
  by_contra hle
  have hsome : Call.notBefore first (.arrival seqNo payload nowMs) = some (seqNo, nowMs) :=
    Call.notBefore_eq_some.mpr ⟨payload, rfl, not_lt.mp hle⟩
  rw [hnone] at hsome
  exact absurd hsome (by simp)

/-- A smaller number is first missing no later than a larger one. -/
theorem firstBeyond_mono (hcalls : calls.Pairwise fun c d => c.time ≤ d.time) {k m nowMs : ℕ}
    (hkm : k ≤ m) (h : firstBeyond calls m = some nowMs) :
    ∃ earlier, firstBeyond calls k = some earlier ∧ earlier ≤ nowMs := by
  have htime : ∀ n (c : Call π) b, Call.beyond n c = some b → id b = c.time := by
    intro n c b hb
    rcases Call.beyond_eq_some.mp hb with ⟨seqNo, payload, rfl, -⟩
    rfl
  refine findSome?_earlier hcalls (htime k) (htime m) ?_ h
  intro c hc
  rcases Option.isSome_iff_exists.mp hc with ⟨b, hb⟩
  rcases Call.beyond_eq_some.mp hb with ⟨seqNo, payload, rfl, hm⟩
  rw [Call.beyond_eq_some.mpr ⟨seqNo, payload, rfl, lt_of_le_of_lt hkm hm⟩]
  rfl

theorem opening_earlier (hcalls : calls.Pairwise fun c d => c.time ≤ d.time)
    {first k nowMs : ℕ} (hk : first ≤ k) (h : firstBeyond calls k = some nowMs) :
    ∃ opened openedAt, opening calls first = some (opened, openedAt) ∧ openedAt ≤ nowMs := by
  have hfound : ∃ a, opening calls first = some a ∧ a.2 ≤ id nowMs := by
    refine findSome?_earlier hcalls ?_ ?_ ?_ h
    · intro c b hb
      rcases Call.notBefore_eq_some.mp hb with ⟨payload, rfl, -⟩
      rfl
    · intro c b hb
      rcases Call.beyond_eq_some.mp hb with ⟨seqNo, payload, rfl, -⟩
      rfl
    · intro c hc
      rcases Option.isSome_iff_exists.mp hc with ⟨b, hb⟩
      rcases Call.beyond_eq_some.mp hb with ⟨seqNo, payload, rfl, hlt⟩
      have hsome : Call.notBefore first (.arrival seqNo payload b) = some (seqNo, b) :=
        Call.notBefore_eq_some.mpr ⟨payload, rfl, le_of_lt (lt_of_le_of_lt hk hlt)⟩
      rw [hsome]
      rfl
  rcases hfound with ⟨⟨opened, openedAt⟩, hopening, htime⟩
  exact ⟨opened, openedAt, hopening, htime⟩

theorem firstBeyond_succ {k : ℕ} (h : lastPayload calls (k + 1) = none) :
    firstBeyond calls (k + 1) = firstBeyond calls k := by
  unfold firstBeyond
  have hcongr : ∀ c ∈ calls, Call.beyond (k + 1) c = Call.beyond k c := by
    intro c hc
    rcases c with ⟨seqNo, payload, nowMs⟩ | nowMs
    · have hne : seqNo ≠ k + 1 := by
        rintro rfl
        have hsome := lastPayload_isSome.mpr ⟨payload, nowMs, hc⟩
        rw [h] at hsome
        exact absurd hsome (by simp)
      have hiff : k + 1 < seqNo ↔ k < seqNo := by omega
      simp only [Call.beyond, hiff]
    · rfl
  clear h
  induction calls with
  | nil => rfl
  | cons c calls ih =>
    rw [List.findSome?_cons, List.findSome?_cons, hcongr c (by simp),
      ih fun d hd => hcongr d (by simp [hd])]

theorem firstBeyond_isSome {k : ℕ} :
    (firstBeyond calls k).isSome ↔ ∃ q, k < q ∧ (lastPayload calls q).isSome := by
  constructor
  · intro h
    rcases Option.isSome_iff_exists.mp h with ⟨nowMs, hsome⟩
    rcases firstBeyond_some_mem hsome with ⟨q, payload, hmem, hlt⟩
    exact ⟨q, hlt, lastPayload_isSome.mpr ⟨payload, nowMs, hmem⟩⟩
  · rintro ⟨q, hlt, hq⟩
    rw [Option.isSome_iff_ne_none, ne_eq, firstBeyond_none]
    intro hall
    rcases lastPayload_isSome.mp hq with ⟨payload, nowMs, hmem⟩
    have hle := hall q payload nowMs hmem
    omega

/-- A number skipped by the opening arrival is first missing with it. -/
theorem opening_beyond {first opened openedAt k : ℕ}
    (h : opening calls first = some (opened, openedAt)) (hk : first ≤ k) (hlt : k < opened) :
    firstBeyond calls k = some openedAt := by
  unfold opening firstBeyond at *
  induction calls with
  | nil => simp at h
  | cons c calls ih =>
    rcases hfirst : c.notBefore first with _ | found
    · have hbeyond : c.beyond k = none := by
        by_contra hne
        rcases Option.ne_none_iff_exists'.mp hne with ⟨since, hsince⟩
        rcases Call.beyond_eq_some.mp hsince with ⟨seqNo, payload, rfl, hgt⟩
        have hsome : Call.notBefore first (.arrival seqNo payload since) =
            some (seqNo, since) :=
          Call.notBefore_eq_some.mpr ⟨payload, rfl, le_of_lt (lt_of_le_of_lt hk hgt)⟩
        rw [hfirst] at hsome
        exact absurd hsome (by simp)
      rw [List.findSome?_cons, hfirst] at h
      rw [List.findSome?_cons, hbeyond]
      exact ih h
    · rw [List.findSome?_cons, hfirst] at h
      obtain rfl := Option.some.inj h
      rcases Call.notBefore_eq_some.mp hfirst with ⟨payload, rfl, -⟩
      rw [List.findSome?_cons, Call.beyond_eq_some.mpr ⟨opened, payload, rfl, hlt⟩]

theorem opening_extend {found : ℕ × ℕ} (h : opening calls first = some found)
    (call : Call π) : opening (calls ++ [call]) first = some found := by
  unfold opening at h ⊢
  rw [List.findSome?_append, h]
  rfl

theorem Below.ofPrefix {bound : ℕ} {earlier : List (Call π)} (h : Below bound calls)
    (hpre : earlier <+: calls) : Below bound earlier :=
  fun seqNo payload nowMs hmem => h seqNo payload nowMs (hpre.subset hmem)

theorem Driven.ofPrefix {bound : ℕ} {earlier : List (Call π)} (h : Driven bound calls)
    (hpre : earlier <+: calls) : Driven bound earlier where
  sorted := h.sorted.sublist hpre.sublist
  bounded := h.bounded.ofPrefix hpre

end Reading

end Calls

/-- The numbers from `first` to `stop` passed in order, each taken or
skipped. -/
structure Swept (first stop : ℕ) (taken skipped : List ℕ) : Prop where
  le : first ≤ stop
  taken_sorted : taken.Pairwise (· < ·)
  skipped_sorted : skipped.Pairwise (· < ·)
  perm : (taken ++ skipped).Perm (List.range' first (stop - first))

namespace Swept

variable {first stop : ℕ} {taken skipped : List ℕ}

theorem start (first : ℕ) : Swept first first [] [] :=
  ⟨le_rfl, List.Pairwise.nil, List.Pairwise.nil, by simp⟩

/-- A number is in the interval if and only if it was taken or skipped. -/
theorem taken_or_skipped (h : Swept first stop taken skipped) (k : ℕ) :
    (k ∈ taken ∨ k ∈ skipped) ↔ first ≤ k ∧ k < stop := by
  have hle := h.le
  rw [← List.mem_append, h.perm.mem_iff, List.mem_range'_1]
  omega

theorem taken_bounds (h : Swept first stop taken skipped) {k : ℕ} (hk : k ∈ taken) :
    first ≤ k ∧ k < stop :=
  (h.taken_or_skipped k).mp (Or.inl hk)

theorem skipped_bounds (h : Swept first stop taken skipped) {k : ℕ} (hk : k ∈ skipped) :
    first ≤ k ∧ k < stop :=
  (h.taken_or_skipped k).mp (Or.inr hk)

theorem taken_eq (h : Swept first stop taken []) :
    taken = List.range' first (stop - first) := by
  have hperm : taken.Perm (List.range' first (stop - first)) := by
    have hboth := h.perm
    rw [List.append_nil] at hboth
    exact hboth
  exact hperm.eq_of_pairwise' h.taken_sorted List.pairwise_lt_range'

theorem sorted_append {xs ys : List ℕ} {mid : ℕ} (hxs : xs.Pairwise (· < ·))
    (hys : ys.Pairwise (· < ·)) (hlow : ∀ x ∈ xs, x < mid) (hhigh : ∀ y ∈ ys, mid ≤ y) :
    (xs ++ ys).Pairwise (· < ·) :=
  List.pairwise_append.mpr
    ⟨hxs, hys, fun x hx y hy => lt_of_lt_of_le (hlow x hx) (hhigh y hy)⟩

/-- The front moves on to `stop'`, taking the numbers that satisfy
`p` and skipping the others. -/
theorem extend (h : Swept first stop taken skipped) {stop' : ℕ} (hstop : stop ≤ stop')
    (p : ℕ → Bool) :
    Swept first stop' (taken ++ (List.range' stop (stop' - stop)).filter p)
      (skipped ++ (List.range' stop (stop' - stop)).filter fun k => !p k) := by
  have hle := h.le
  have hrange : (List.range' stop (stop' - stop)).Pairwise (· < ·) := List.pairwise_lt_range'
  have hbound : ∀ q : ℕ → Bool, ∀ k ∈ (List.range' stop (stop' - stop)).filter q, stop ≤ k := by
    intro q k hk
    have hmem := List.mem_range'_1.mp (List.mem_filter.mp hk).1
    omega
  refine ⟨by omega, ?_, ?_, ?_⟩
  · exact sorted_append h.taken_sorted (hrange.filter p) (fun k hk => (h.taken_bounds hk).2)
      (hbound p)
  · exact sorted_append h.skipped_sorted (hrange.filter _)
      (fun k hk => (h.skipped_bounds hk).2) (hbound _)
  · have hsplit : List.range' first (stop' - first) =
        List.range' first (stop - first) ++ List.range' stop (stop' - stop) := by
      have hlength : stop' - first = (stop - first) + (stop' - stop) := by omega
      have hmid : first + 1 * (stop - first) = stop := by omega
      have happend := @List.range'_append first (stop - first) (stop' - stop) 1
      rw [hmid] at happend
      rw [hlength, happend]
    rw [hsplit]
    have hfilter := List.filter_append_perm p (List.range' stop (stop' - stop))
    refine List.Perm.trans ?_ (h.perm.append hfilter)
    rw [List.append_assoc, List.append_assoc]
    exact List.Perm.append_left taken (List.perm_append_comm_assoc _ _ _)

end Swept

end Timeline
end Library
end Vaco
