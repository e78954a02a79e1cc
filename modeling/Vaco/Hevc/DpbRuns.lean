import Vaco.Hevc.Dpb

/-!
# Runs of the decoded picture buffer

Every picture is decoded in the same steps: its reference picture set is applied, pictures are bumped,
read and reaped, the picture is stored as a reference, and pictures are bumped, read and reaped once
more.  At the end what still waits is read and the buffer is emptied.

Main results:

- `Holds.decodePicture`: what a run has emitted and what still waits are the pictures stored for
  output.
- `Ordered.bump`: a bump for reordering alone outputs nothing that a later picture comes before.
- `dpb_outputs`: every picture is output once and in order, nothing is read too late, and all bytes
  are given back.
- `dpb_within_bounds`: the bounds of the buffer hold after every picture.

Current gaps:

- A sequence begins with an empty buffer; what a new one does to the old buffer is left out.
-/

namespace Vaco
namespace Hevc

open Library Vaco.Core Sched Dpb

variable {α : Type}

/-- A picture to decode, with what its slice header says. -/
structure CodedPicture (α : Type) where
  sets : ReferencePicSets
  poc : Int
  neededForOutput : Bool
  picture : Picture α

/-- The buffer, the budget it gives bytes back to, and what was read for output. -/
structure Run (α : Type) where
  dpb : Dpb α
  budget : Budget
  emitted : List (Int × Option (Picture α))

/-- Read some pictures for output. -/
def Dpb.read (dpb : Dpb α) (pocs : List Int) : List (Int × Option (Picture α)) :=
  pocs.map fun poc => (poc, dpb.pictureForOutput poc)

namespace Run

/-- Read what was bumped. -/
def emit (r : Run α) (bumped : List Int × Dpb α) : Run α :=
  { r with dpb := bumped.2, emitted := r.emitted ++ bumped.2.read bumped.1 }

/-- Drop what is no longer used. -/
def reap (r : Run α) : Run α :=
  let reaped := r.dpb.reapUnused r.budget
  { r with dpb := reaped.1, budget := reaped.2 }

/-- Apply the sets of a picture. -/
def apply (r : Run α) (sets : ReferencePicSets) : Run α :=
  let marked := r.dpb.applyReferencePictureSet sets r.budget
  { r with dpb := marked.1, budget := marked.2 }

/-- The state in which a picture is decoded. -/
def ready (r : Run α) (c : CodedPicture α) : Run α :=
  let r := r.apply c.sets
  (r.emit r.dpb.bumpPreDecode).reap

/-- The state with a decoded picture; every picture is stored as a reference. -/
def stored (r : Run α) (c : CodedPicture α) : Run α :=
  { r with dpb := r.dpb.store c.picture c.poc c.neededForOutput true }

/-- Decode one picture. -/
def decodePicture (r : Run α) (c : CodedPicture α) : Run α :=
  let r := (r.ready c).stored c
  (r.emit (r.dpb.bumpPostDecode c.poc)).reap

/-- The end of the sequence. -/
def finish (r : Run α) : Run α :=
  let r := r.emit (r.dpb.flush, r.dpb)
  let cleared := r.dpb.clearAll r.budget
  { r with dpb := cleared.1, budget := cleared.2 }

end Run

/-- Decode some pictures. -/
def decodeAll (dpb : Dpb α) (budget : Budget) (coded : List (CodedPicture α)) : Run α :=
  coded.foldl Run.decodePicture ⟨dpb, budget, []⟩

/-! ## What a run keeps -/

/-- The order count and the picture of an entry. -/
def pairOf (e : DpbEntry α) : Int × Picture α :=
  (e.poc, e.picture)

/-- The bytes of some entries. -/
def bytesOf (entries : List (DpbEntry α)) : Nat :=
  (entries.map fun e => e.picture.budgetBytes).sum

/-- The order counts of the pictures stored for output. -/
def wanted (history : List (CodedPicture α)) : List Int :=
  (history.filter CodedPicture.neededForOutput).map CodedPicture.poc

/-- Everything in the buffer is a picture of the history, and outputs and bytes are those of all of
them. -/
structure Holds (start : Budget) (history : List (CodedPicture α)) (r : Run α) : Prop where
  entries : (r.dpb.entries.map pairOf).Sublist (history.map fun c => (c.poc, c.picture))
  outputs : (r.emitted.map Prod.fst ++ r.dpb.pending).Perm (wanted history)
  reads : ∀ x ∈ r.emitted, ∃ c ∈ history, x = (c.poc, some c.picture)
  bytes : ∃ given, r.budget = start.release given ∧
    given + bytesOf r.dpb.entries = (history.map fun c => c.picture.budgetBytes).sum

variable {start : Budget} {history rest : List (CodedPicture α)} {r : Run α} {dpb dpb' : Dpb α}
  {c : CodedPicture α} {outs : List Int}

theorem release_release (b : Budget) (x y : Nat) : (b.release x).release y = b.release (x + y) := by
  simp [Budget.release, Nat.sub_sub]

theorem releaseAll_eq (b : Budget) (entries : List (DpbEntry α)) :
    releaseAll b entries = b.release (bytesOf entries) := by
  induction entries generalizing b with
  | nil => rfl
  | cons e entries ih =>
      rw [releaseAll, List.foldl_cons, ← releaseAll, ih, release_release]
      rfl

theorem bytesOf_filter (entries : List (DpbEntry α)) (p : DpbEntry α → Bool) :
    bytesOf (entries.filter fun e => !p e) + bytesOf (entries.filter p) = bytesOf entries := by
  induction entries with
  | nil => rfl
  | cons e entries ih =>
      simp only [bytesOf, List.map_cons, List.sum_cons] at *
      cases hp : p e <;> simp [hp] <;> omega

theorem bytesOf_eq_of_pairs (h : dpb'.entries.map pairOf = dpb.entries.map pairOf) :
    bytesOf dpb'.entries = bytesOf dpb.entries := by
  have hmap : ∀ entries : List (DpbEntry α),
      bytesOf entries = ((entries.map pairOf).map fun p => p.2.budgetBytes).sum := by
    intro entries
    rw [List.map_map]
    rfl
  rw [hmap, hmap, h]

theorem pairs_of_cores (h : dpb'.cores = dpb.cores) :
    dpb'.entries.map pairOf = dpb.entries.map pairOf := by
  have hmap := congrArg (List.map fun x : Int × Picture α × Marking => (x.1, x.2.1)) h
  rw [cores, cores, List.map_map, List.map_map] at hmap
  exact hmap

theorem mem_pocs_of_pending {poc : Int} (h : poc ∈ dpb.pending) :
    ∃ picture, (poc, picture) ∈ dpb.entries.map pairOf := by
  rcases List.mem_map.1 h with ⟨e, he, rfl⟩
  exact ⟨e.picture, List.mem_map.2 ⟨e, (List.mem_filter.1 he).1, rfl⟩⟩

theorem pictureForOutput_of_mem {poc : Int} {picture : Picture α}
    (h : (poc, picture) ∈ dpb.entries.map pairOf) :
    ∃ other, dpb.pictureForOutput poc = some other ∧ (poc, other) ∈ dpb.entries.map pairOf := by
  rcases List.mem_map.1 h with ⟨e, he, hpair⟩
  have hpoc : e.poc = poc := congrArg Prod.fst hpair
  cases hfind : dpb.entries.find? fun e => e.poc == poc with
  | none =>
      have hnot := List.find?_eq_none.1 hfind e he
      simp [hpoc] at hnot
  | some found =>
      have hfound := List.find?_some hfind
      refine ⟨found.picture, by rw [pictureForOutput, hfind]; rfl, ?_⟩
      rw [← beq_iff_eq.1 hfound]
      exact List.mem_map.2 ⟨found, List.mem_of_find?_eq_some hfind, rfl⟩

/-- Marking, counting delays and bumping take pictures from those that wait, and these are read. -/
theorem Holds.emit (h : Holds start history r)
    (hpairs : dpb'.entries.map pairOf = r.dpb.entries.map pairOf)
    (hperm : (outs ++ dpb'.pending).Perm r.dpb.pending) :
    Holds start history (r.emit (outs, dpb')) where
  entries := by
    have hentries := h.entries
    rwa [← hpairs] at hentries
  outputs := by
    have hmap : (dpb'.read outs).map Prod.fst = outs := by
      rw [Dpb.read, List.map_map]
      exact List.map_id'' (fun _ => rfl) outs
    rw [Run.emit, List.map_append, hmap, List.append_assoc]
    exact (hperm.append_left _).trans h.outputs
  reads := by
    intro x hx
    rcases List.mem_append.1 hx with hold | hnew
    · exact h.reads x hold
    · rcases List.mem_map.1 hnew with ⟨poc, hpoc, rfl⟩
      have hwaits : poc ∈ r.dpb.pending := hperm.subset (List.mem_append_left _ hpoc)
      rcases mem_pocs_of_pending hwaits with ⟨picture, hmem⟩
      rw [← hpairs] at hmem
      rcases pictureForOutput_of_mem hmem with ⟨other, hread, hother⟩
      rw [hpairs] at hother
      rcases List.mem_map.1 (h.entries.subset hother) with ⟨c, hc, hpair⟩
      cases hpair
      exact ⟨c, hc, by rw [hread]⟩
  bytes := by
    have hbytes := h.bytes
    rwa [← bytesOf_eq_of_pairs hpairs] at hbytes

theorem pending_removeUnused (dpb : Dpb α) (b : Budget) :
    (dpb.removeUnused b).1.pending = dpb.pending := by
  rw [pending, pending, removeUnused, List.filter_filter]
  congr 1
  refine List.filter_congr fun e _ => ?_
  cases hneeded : e.neededForOutput <;> simp [DpbEntry.stays, hneeded]

theorem Holds.reap (h : Holds start history r) : Holds start history r.reap where
  entries := ((List.filter_sublist).map pairOf).trans h.entries
  outputs := by
    have houtputs := h.outputs
    rwa [← pending_removeUnused r.dpb r.budget] at houtputs
  reads := h.reads
  bytes := by
    rcases h.bytes with ⟨given, hbudget, hsum⟩
    have hsplit := bytesOf_filter r.dpb.entries DpbEntry.stays
    refine ⟨given + bytesOf (r.dpb.entries.filter fun e => !e.stays), ?_, ?_⟩
    · rw [← release_release, ← hbudget, ← releaseAll_eq]
      rfl
    · have hleft : r.reap.dpb.entries = r.dpb.entries.filter DpbEntry.stays := rfl
      rw [hleft]
      omega

theorem Holds.apply (h : Holds start history r) (sets : ReferencePicSets) :
    Holds start history (r.apply sets) := by
  have hmarked : Holds start history (r.emit ([], { r.dpb with
      entries := r.dpb.entries.map fun e =>
        { e with marking := if sets.kept e.poc then .shortTerm else .unused } })) :=
    h.emit (by rw [List.map_map]; rfl)
      (by rw [pending, pending, List.nil_append, List.filter_map, List.map_map]; rfl)
  rw [Run.emit, Dpb.read, List.map_nil, List.append_nil] at hmarked
  exact hmarked.reap

theorem Holds.ready (h : Holds start history r) (c : CodedPicture α) :
    Holds start history (r.ready c) := by
  have hmarked := h.apply c.sets
  have hbump := (bumps_bumpWhile shouldBumpPre (r.apply c.sets).dpb).spec
  exact (hmarked.emit (pairs_of_cores hbump.2.1) hbump.1).reap

theorem Holds.stored (h : Holds start history r) (c : CodedPicture α) :
    Holds start (history ++ [c]) (r.stored c) where
  entries := by
    rw [Run.stored, store, List.map_append, List.map_append]
    exact h.entries.append (List.Sublist.refl _)
  outputs := by
    have hwanted : wanted (history ++ [c]) = wanted history ++ wanted [c] := by
      simp [wanted]
    have hwaits : (r.stored c).dpb.pending = r.dpb.pending ++ wanted [c] := by
      cases hneeded : c.neededForOutput <;>
        simp [Run.stored, store, pending, wanted, hneeded]
    rw [hwanted, hwaits, ← List.append_assoc]
    exact h.outputs.append_right _
  reads := by
    intro x hx
    rcases h.reads x hx with ⟨d, hd, hread⟩
    exact ⟨d, List.mem_append_left _ hd, hread⟩
  bytes := by
    rcases h.bytes with ⟨given, hbudget, hsum⟩
    refine ⟨given, hbudget, ?_⟩
    simp only [Run.stored, store, bytesOf, List.map_append, List.sum_append, List.map_cons,
      List.map_nil, List.sum_cons, List.sum_nil] at *
    omega

theorem pairs_countLatency (dpb : Dpb α) (poc : Int) :
    (dpb.countLatency poc).entries.map pairOf = dpb.entries.map pairOf := by
  rw [countLatency, List.map_map]
  refine List.map_congr_left fun e _ => ?_
  dsimp only [Function.comp]
  split <;> rfl

theorem pending_countLatency (dpb : Dpb α) (poc : Int) :
    (dpb.countLatency poc).pending = dpb.pending := by
  rw [pending, pending, countLatency, List.filter_map, List.map_map]
  have hneeded : (DpbEntry.neededForOutput ∘ fun e : DpbEntry α =>
      if e.neededForOutput && decide (poc < e.poc) then
        { e with latencyCount := min u32Max (e.latencyCount + 1) } else e) =
      DpbEntry.neededForOutput := by
    funext e
    dsimp only [Function.comp]
    split <;> rfl
  rw [hneeded]
  refine List.map_congr_left fun e _ => ?_
  dsimp only [Function.comp]
  split <;> rfl

/-- Decoding a picture adds it to the pictures that are accounted for. -/
theorem Holds.decodePicture (h : Holds start history r) (c : CodedPicture α) :
    Holds start (history ++ [c]) (r.decodePicture c) := by
  have hstored := (h.ready c).stored c
  have hbump := (bumps_bumpWhile shouldBumpPost
    (((r.ready c).stored c).dpb.countLatency c.poc)).spec
  have hperm := hbump.1
  rw [pending_countLatency] at hperm
  rw [Run.decodePicture, bumpPostDecode]
  exact (hstored.emit ((pairs_of_cores hbump.2.1).trans (pairs_countLatency _ _)) hperm).reap

theorem Holds.new (dpb : Dpb α) (start : Budget) (hempty : dpb.entries = []) :
    Holds start [] ⟨dpb, start, []⟩ where
  entries := by simp [hempty]
  outputs := by simp [Dpb.pending, hempty, wanted]
  reads := by simp
  bytes := ⟨0, rfl, by simp [bytesOf, hempty]⟩

theorem Holds.decodeAll (h : Holds start history r) (coded : List (CodedPicture α)) :
    Holds start (history ++ coded) (coded.foldl Run.decodePicture r) := by
  induction coded generalizing history r with
  | nil => simpa using h
  | cons c coded ih => simpa using ih (h.decodePicture c)

/-- At the end everything that waited is read, in order, and all bytes are given back. -/
theorem Holds.finish (h : Holds start history r) :
    (r.finish.emitted.map Prod.fst).Perm (wanted history) ∧
      (∀ x ∈ r.finish.emitted, ∃ c ∈ history, x = (c.poc, some c.picture)) ∧
      r.finish.budget = start.release (history.map fun c => c.picture.budgetBytes).sum ∧
      r.finish.emitted.map Prod.fst = r.emitted.map Prod.fst ++ r.dpb.pending.mergeSort := by
  have hmap : (r.finish.emitted).map Prod.fst = r.emitted.map Prod.fst ++ r.dpb.pending.mergeSort := by
    rw [Run.finish, Run.emit, Dpb.read, List.map_append, List.map_map]
    exact congrArg _ (List.map_id'' (fun _ => rfl) _)
  refine ⟨?_, ?_, ?_, hmap⟩
  · rw [hmap]
    exact ((List.mergeSort_perm _ _).append_left _).trans h.outputs
  · -- Nothing is taken from the pictures that wait: they are read where they are.
    intro x hx
    rcases List.mem_append.1 hx with hold | hnew
    · exact h.reads x hold
    · rcases List.mem_map.1 hnew with ⟨poc, hpoc, rfl⟩
      have hwaits : poc ∈ r.dpb.pending := (List.mergeSort_perm _ _).subset hpoc
      rcases mem_pocs_of_pending hwaits with ⟨picture, hmem⟩
      rcases pictureForOutput_of_mem hmem with ⟨other, hread, hother⟩
      rcases List.mem_map.1 (h.entries.subset hother) with ⟨c, hc, hpair⟩
      cases hpair
      exact ⟨c, hc, by rw [hread]⟩
  · rcases h.bytes with ⟨given, hbudget, hsum⟩
    have hall : r.finish.budget = releaseAll r.budget r.dpb.entries := rfl
    rw [hall, releaseAll_eq, hbudget, release_release, hsum]

/-! ## What a set keeps -/

/-- A picture is in the buffer as a reference. -/
def Keeps (dpb : Dpb α) (c : CodedPicture α) : Prop :=
  (c.poc, c.picture, Marking.shortTerm) ∈ dpb.cores

theorem Keeps.reap (h : Keeps r.dpb c) : Keeps r.reap.dpb c := by
  rcases List.mem_map.1 h with ⟨e, he, hcore⟩
  have hmark : e.marking = .shortTerm := congrArg (fun x => x.2.2) hcore
  exact List.mem_map.2 ⟨e, List.mem_filter.2 ⟨he, by simp [DpbEntry.stays, hmark]⟩, hcore⟩

theorem Keeps.apply {sets : ReferencePicSets} (h : Keeps r.dpb c)
    (hkept : sets.kept c.poc = true) : Keeps (r.apply sets).dpb c := by
  rcases List.mem_map.1 h with ⟨e, he, hcore⟩
  have hpoc : e.poc = c.poc := congrArg Prod.fst hcore
  have hpicture : e.picture = c.picture := congrArg (fun x => x.2.1) hcore
  refine Keeps.reap (r := { r with dpb := { r.dpb with
    entries := r.dpb.entries.map fun e =>
      { e with marking := if sets.kept e.poc then .shortTerm else .unused } } }) ?_
  refine List.mem_map.2 ⟨_, List.mem_map_of_mem he, ?_⟩
  rw [DpbEntry.core]
  dsimp only
  rw [hpoc, hpicture, if_pos hkept]

theorem Keeps.ready {d : CodedPicture α} (h : Keeps r.dpb c) (hkept : d.sets.kept c.poc = true) :
    Keeps (r.ready d).dpb c := by
  have hmarked := h.apply hkept
  have hbump := (bumps_bumpWhile shouldBumpPre (r.apply d.sets).dpb).spec
  refine Keeps.reap (r := (r.apply d.sets).emit (r.apply d.sets).dpb.bumpPreDecode) ?_
  rw [Keeps, ← hbump.2.1] at hmarked
  exact hmarked

theorem cores_countLatency (dpb : Dpb α) (poc : Int) : (dpb.countLatency poc).cores = dpb.cores := by
  rw [cores, cores, countLatency, List.map_map]
  refine List.map_congr_left fun e _ => ?_
  dsimp only [Function.comp]
  split <;> rfl

theorem Keeps.decoded {d : CodedPicture α} (h : Keeps ((r.ready d).stored d).dpb c) :
    Keeps (r.decodePicture d).dpb c := by
  have hbump := (bumps_bumpWhile shouldBumpPost
    (((r.ready d).stored d).dpb.countLatency d.poc)).spec
  rw [Keeps, ← cores_countLatency _ d.poc, ← hbump.2.1] at h
  rw [Run.decodePicture, bumpPostDecode]
  exact Keeps.reap h

theorem Keeps.stored {d : CodedPicture α} (h : Keeps r.dpb c) : Keeps (r.stored d).dpb c := by
  rw [Keeps, Run.stored, store, cores, List.map_append]
  exact List.mem_append_left _ h

theorem keeps_stored (r : Run α) (c : CodedPicture α) : Keeps (r.stored c).dpb c := by
  rw [Keeps, Run.stored, store, cores, List.map_append]
  exact List.mem_append_right _ (List.mem_singleton_self _)

theorem Keeps.decodeAll {middle : List (CodedPicture α)} (h : Keeps r.dpb c)
    (hkept : ∀ d ∈ middle, d.sets.kept c.poc = true) :
    Keeps (middle.foldl Run.decodePicture r).dpb c := by
  induction middle generalizing r with
  | nil => exact h
  | cons d middle ih =>
      have hready := h.ready (hkept d List.mem_cons_self)
      rw [List.foldl_cons]
      exact ih hready.stored.decoded fun other hmem => hkept other (List.mem_cons_of_mem d hmem)

/-- With distinct order counts, a picture that is kept is the reference of its order count. -/
theorem Keeps.referencePicture (h : Keeps r.dpb c) (hholds : Holds start history r)
    (hmem : c ∈ history) (hdistinct : (history.map CodedPicture.poc).Nodup) :
    r.dpb.referencePicture c.poc = some c.picture := by
  rcases List.mem_map.1 h with ⟨e, he, hcore⟩
  have hpoc : e.poc = c.poc := congrArg Prod.fst hcore
  have hmark : e.marking = .shortTerm := congrArg (fun x => x.2.2) hcore
  rw [Dpb.referencePicture]
  cases hfind : r.dpb.entries.find? fun e => e.poc == c.poc && e.marking == .shortTerm with
  | none =>
      have hnot := List.find?_eq_none.1 hfind e he
      simp [hpoc, hmark] at hnot
  | some found =>
      have hfound := List.find?_some hfind
      have hsame : found.poc = c.poc := by simpa using (Bool.and_eq_true_iff.1 hfound).1
      have hpair := hholds.entries.subset
        (List.mem_map_of_mem (f := pairOf) (List.mem_of_find?_eq_some hfind))
      rcases List.mem_map.1 hpair with ⟨d, hd, heq⟩
      have hd_poc : d.poc = c.poc := (congrArg Prod.fst heq).trans hsame
      have hd_eq : d = c := List.inj_on_of_nodup_map hdistinct hd hmem hd_poc
      have hpicture : d.picture = found.picture := congrArg Prod.snd heq
      rw [Option.map_some, ← hpicture, hd_eq]

/-! ## Order -/

/-- The states in which the condition of a bump is asked for. -/
inductive Evaluated (shouldBump : Dpb α → Bool) : Dpb α → Dpb α → Prop where
  | here (dpb : Dpb α) : Evaluated shouldBump dpb dpb
  | later {dpb next x : Dpb α} {poc : Int} : shouldBump dpb = true →
      dpb.bumpOnce = some (poc, next) → Evaluated shouldBump next x → Evaluated shouldBump dpb x

/-- The capacity and latency conditions never hold where they are asked for. -/
def Unforced (r : Run α) : List (CodedPicture α) → Prop
  | [] => True
  | c :: coded =>
      (∀ x, Evaluated shouldBumpPre (r.apply c.sets).dpb x →
        x.overLatency = false ∧ x.overCapacity = false) ∧
      (∀ x, Evaluated shouldBumpPost (((r.ready c).stored c).dpb.countLatency c.poc) x →
        x.overLatency = false) ∧
      Unforced (r.decodePicture c) coded

/-- No picture is preceded in decoding order and followed in output order by more pictures. -/
def ReorderAtMost (n : Nat) (coded : List (CodedPicture α)) : Prop :=
  ∀ before c behind, coded = before ++ c :: behind →
    before.countP (fun b => decide (c.poc < b.poc)) ≤ n

/-- What is output is in order, and comes before all that waits and all that follows. -/
structure Ordered (outs waiting future : List Int) : Prop where
  sorted : outs.Pairwise (· < ·)
  below : ∀ o ∈ outs, ∀ q, q ∈ waiting ∨ q ∈ future → o < q

/-- No following picture comes before more than a number of those that wait. -/
def Room (n : Nat) (waiting future : List Int) : Prop :=
  waiting.Nodup ∧ ∀ p ∈ future, p ∉ waiting ∧ waiting.countP (fun q => decide (p < q)) ≤ n

variable {n : Nat} {shouldBump : Dpb α → Bool} {done future : List Int}

/-- A bump for reordering alone outputs nothing that a following picture comes before. -/
theorem Ordered.bump (hbumps : Bumps shouldBump dpb outs dpb')
    (h : Ordered done dpb.pending future) (hroom : Room n dpb.pending future)
    (hlimit : dpb.maxNumReorderPics = n)
    (hreorder : ∀ x, Evaluated shouldBump dpb x → shouldBump x = true → x.overReorder = true) :
    Ordered (done ++ outs) dpb'.pending future := by
  induction hbumps generalizing done with
  | stop dpb => simpa using h
  | output hshould honce _ ih =>
      rename_i dpb next dpb' poc outs _
      rcases bumpOnce_spec honce with ⟨hleast, hmem, hperm, -, hsame⟩
      have hover := hreorder dpb (.here dpb) hshould
      have hmany : n < dpb.pending.length := by
        rw [overReorder, decide_eq_true_eq, hlimit] at hover
        rwa [pending, List.length_map]
      have hnodup := hperm.nodup_iff.2 hroom.1
      have hnext : ∀ q, q ∈ next.pending → q ∈ dpb.pending :=
        fun q hq => hperm.subset (List.mem_cons_of_mem poc hq)
      -- More pictures wait than one that follows may come before.
      have hfuture : ∀ p ∈ future, poc < p := by
        intro p hp
        have hroom_p := hroom.2 p hp
        by_contra hle
        have hne : p ≠ poc := fun heq => hroom_p.1 (heq ▸ hmem)
        have hall : dpb.pending.countP (fun q => decide (p < q)) = dpb.pending.length := by
          refine List.countP_eq_length.2 fun q hq => decide_eq_true ?_
          have hq_least := hleast q hq
          omega
        omega
      have hordered : Ordered (done ++ [poc]) next.pending future := by
        constructor
        · refine List.pairwise_append.2 ⟨h.sorted, List.pairwise_singleton _ _, ?_⟩
          intro o ho q hq
          rw [List.mem_singleton.1 hq]
          exact h.below o ho poc (Or.inl hmem)
        · intro o ho q hq
          rcases List.mem_append.1 ho with hold | hnew
          · exact h.below o hold q (hq.imp_left (hnext q))
          · rw [List.mem_singleton.1 hnew]
            rcases hq with hq | hq
            · have hne : poc ≠ q := fun heq => (List.nodup_cons.1 hnodup).1 (heq ▸ hq)
              have hq_least := hleast q (hnext q hq)
              omega
            · exact hfuture q hq
      have hroom_next : Room n next.pending future := by
        refine ⟨(List.nodup_cons.1 hnodup).2, fun p hp => ?_⟩
        have hroom_p := hroom.2 p hp
        refine ⟨fun hq => hroom_p.1 (hnext p hq), ?_⟩
        have hcount := hperm.countP_eq fun q => decide (p < q)
        have hle : next.pending.countP (fun q => decide (p < q)) ≤
            (poc :: next.pending).countP (fun q => decide (p < q)) :=
          (List.sublist_cons_self poc next.pending).countP_le
        omega
      have hlater := ih hordered hroom_next (hsame.trans hlimit)
        fun x hx => hreorder x (.later hshould honce hx)
      rwa [List.append_assoc] at hlater

theorem Holds.room (h : Holds start history r)
    (hdistinct : ((history ++ rest).map CodedPicture.poc).Nodup)
    (hreorder : ReorderAtMost n (history ++ rest)) :
    Room n r.dpb.pending (rest.map CodedPicture.poc) := by
  have hsub : r.dpb.pending.Sublist (history.map CodedPicture.poc) := by
    have hentries := h.entries.map Prod.fst
    rw [List.map_map, List.map_map] at hentries
    exact ((List.filter_sublist).map DpbEntry.poc).trans hentries
  rw [List.map_append] at hdistinct
  have hparts := List.nodup_append.1 hdistinct
  refine ⟨hsub.nodup hparts.1, fun p hp => ⟨fun hmem => ?_, ?_⟩⟩
  · exact hparts.2.2 p (hsub.subset hmem) p hp rfl
  · rcases List.mem_map.1 hp with ⟨c, hc, rfl⟩
    rcases List.append_of_mem hc with ⟨before, behind, rfl⟩
    have hcount := hreorder (history ++ before) c behind (by simp)
    have hle := hsub.countP_le (p := fun q => decide (c.poc < q))
    rw [List.countP_map] at hle
    rw [List.countP_append] at hcount
    exact (hle.trans (Nat.le_add_right _ _)).trans hcount

theorem maxNumReorderPics_reap (r : Run α) :
    r.reap.dpb.maxNumReorderPics = r.dpb.maxNumReorderPics :=
  rfl

theorem maxNumReorderPics_decodePicture (r : Run α) (c : CodedPicture α) :
    (r.ready c).dpb.maxNumReorderPics = r.dpb.maxNumReorderPics ∧
      (r.decodePicture c).dpb.maxNumReorderPics = r.dpb.maxNumReorderPics := by
  have hpre := (bumps_bumpWhile shouldBumpPre (r.apply c.sets).dpb).spec.2.2
  have hpost := (bumps_bumpWhile shouldBumpPost
    (((r.ready c).stored c).dpb.countLatency c.poc)).spec.2.2
  have hready : (r.ready c).dpb.maxNumReorderPics = r.dpb.maxNumReorderPics := by
    rw [Run.ready, maxNumReorderPics_reap, Run.emit, bumpPreDecode, hpre]
    rfl
  refine ⟨hready, ?_⟩
  rw [Run.decodePicture, maxNumReorderPics_reap, Run.emit, bumpPostDecode, hpost, ← hready]
  rfl

/-- One picture keeps the order, if no output of it is forced. -/
theorem Ordered.decodePicture (hholds : Holds start history r)
    (hlimit : r.dpb.maxNumReorderPics = n)
    (hdistinct : ((history ++ c :: rest).map CodedPicture.poc).Nodup)
    (hreorder : ReorderAtMost n (history ++ c :: rest)) (hfree : Unforced r (c :: rest))
    (h : Ordered (r.emitted.map Prod.fst) r.dpb.pending ((c :: rest).map CodedPicture.poc)) :
    Ordered ((r.decodePicture c).emitted.map Prod.fst) (r.decodePicture c).dpb.pending
      (rest.map CodedPicture.poc) := by
  have hmarked := hholds.apply c.sets
  have hready := hholds.ready c
  have hstored := hready.stored c
  have hsame := maxNumReorderPics_decodePicture r c
  have hread : ∀ (d : Dpb α) pocs, (d.read pocs).map Prod.fst = pocs := by
    intro d pocs
    rw [Dpb.read, List.map_map]
    exact List.map_id'' (fun _ => rfl) pocs
  have hpending : (r.apply c.sets).dpb.pending = r.dpb.pending := by
    rw [Run.apply, applyReferencePictureSet, pending_removeUnused, pending, pending,
      List.filter_map, List.map_map]
    rfl
  have hpre : Ordered ((r.ready c).emitted.map Prod.fst) (r.ready c).dpb.pending
      ((c :: rest).map CodedPicture.poc) := by
    rw [← hpending] at h
    have hbump := h.bump (bumps_bumpWhile shouldBumpPre (r.apply c.sets).dpb)
      (hmarked.room hdistinct hreorder) hlimit (by
        intro x hx hshould
        have hnot := hfree.1 x hx
        simpa [shouldBumpPre, hnot.1, hnot.2] using hshould)
    rw [Run.ready, Run.reap, Run.emit, reapUnused, pending_removeUnused, List.map_append, hread]
    exact hbump
  have hwaits : ((r.ready c).stored c).dpb.pending = (r.ready c).dpb.pending ++ wanted [c] := by
    cases hneeded : c.neededForOutput <;> simp [Run.stored, store, pending, wanted, hneeded]
  have hmid : Ordered (((r.ready c).stored c).emitted.map Prod.fst)
      ((r.ready c).stored c).dpb.pending (rest.map CodedPicture.poc) := by
    refine ⟨hpre.sorted, fun o ho q hq => hpre.below o ho q ?_⟩
    rw [hwaits, List.mem_append] at hq
    rcases hq with (hq | hq) | hq
    · exact Or.inl hq
    · have hself : q = c.poc := by
        rcases List.mem_map.1 hq with ⟨d, hd, rfl⟩
        rw [List.mem_singleton.1 (List.mem_filter.1 hd).1]
      exact Or.inr (hself ▸ List.mem_cons_self)
    · exact Or.inr (List.mem_cons_of_mem c.poc hq)
  have hroom := hstored.room (by simpa using hdistinct) (by simpa using hreorder)
  rw [← pending_countLatency _ c.poc] at hmid hroom
  have hbump := hmid.bump (bumps_bumpWhile shouldBumpPost
    (((r.ready c).stored c).dpb.countLatency c.poc)) hroom (hsame.1.trans hlimit) (by
      intro x hx hshould
      simpa [shouldBumpPost, hfree.2.1 x hx] using hshould)
  rw [Run.decodePicture, Run.reap, Run.emit, bumpPostDecode, reapUnused, pending_removeUnused,
    List.map_append, hread]
  exact hbump

theorem Ordered.decodeAll (hholds : Holds start history r)
    (hlimit : r.dpb.maxNumReorderPics = n)
    (hdistinct : ((history ++ rest).map CodedPicture.poc).Nodup)
    (hreorder : ReorderAtMost n (history ++ rest)) (hfree : Unforced r rest)
    (h : Ordered (r.emitted.map Prod.fst) r.dpb.pending (rest.map CodedPicture.poc)) :
    Ordered ((rest.foldl Run.decodePicture r).emitted.map Prod.fst)
      (rest.foldl Run.decodePicture r).dpb.pending [] := by
  induction rest generalizing history r with
  | nil => exact h
  | cons c rest ih =>
      have hlimit_next := (maxNumReorderPics_decodePicture r c).2.trans hlimit
      rw [List.foldl_cons]
      exact ih (hholds.decodePicture c) hlimit_next (by simpa using hdistinct)
        (by simpa using hreorder) hfree.2.2
        (h.decodePicture hholds hlimit hdistinct hreorder hfree)

theorem Ordered.finish {waiting : List Int} (h : Ordered outs waiting []) (hnodup : waiting.Nodup) :
    (outs ++ waiting.mergeSort).Pairwise (· < ·) := by
  have hsorted : waiting.mergeSort.Pairwise (· ≤ ·) := List.pairwise_mergeSort' (· ≤ ·) waiting
  have hdistinct := (List.mergeSort_perm waiting fun a b => decide (a ≤ b)).nodup_iff.2 hnodup
  refine List.pairwise_append.2 ⟨h.sorted, ?_, ?_⟩
  · exact (hsorted.and hdistinct).imp fun hboth => lt_of_le_of_ne hboth.1 hboth.2
  · intro o ho q hq
    exact h.below o ho q (Or.inl ((List.mergeSort_perm waiting _).subset hq))

/-- Every picture is output once and is there when it is read, all bytes are given back, and the
output is in order if none is forced. -/
theorem dpb_outputs (maxDecPicBuffering maxNumReorderPics maxLatencyIncreasePlus1 : Nat)
    (start : Budget) (coded : List (CodedPicture α))
    (hdistinct : (coded.map CodedPicture.poc).Nodup) :
    let empty := Dpb.new maxDecPicBuffering maxNumReorderPics maxLatencyIncreasePlus1
    let run := (decodeAll empty start coded).finish
    (∀ x ∈ run.emitted, ∃ c ∈ coded, x = (c.poc, some c.picture)) ∧
      (run.emitted.map Prod.fst).Perm (wanted coded) ∧
      run.budget = start.release (coded.map fun c => c.picture.budgetBytes).sum ∧
      (∀ before c middle d behind, coded = before ++ c :: (middle ++ d :: behind) →
        (∀ x ∈ middle ++ [d], x.sets.kept c.poc = true) →
          ((decodeAll empty start (before ++ c :: middle)).ready d).dpb.referencePicture c.poc =
            some c.picture) ∧
      (ReorderAtMost maxNumReorderPics coded → Unforced ⟨empty, start, []⟩ coded →
        (run.emitted.map Prod.fst).Pairwise (· < ·)) := by
  intro empty run
  have hnew : Holds start [] ⟨empty, start, []⟩ := Holds.new empty start rfl
  have hall := hnew.decodeAll coded
  rw [List.nil_append] at hall
  have hfinish := hall.finish
  refine ⟨hfinish.2.1, hfinish.1, hfinish.2.2.1, ?_, ?_⟩
  · intro before c middle d behind hcoded hkept
    have hbefore := hnew.decodeAll (before ++ c :: middle)
    rw [List.nil_append] at hbefore
    have hstored := (keeps_stored ((decodeAll empty start before).ready c) c).decoded
    have hmiddle := hstored.decodeAll
      fun x hx => hkept x (List.mem_append_left _ hx)
    have hready := hmiddle.ready (hkept d (List.mem_append_right _ (List.mem_singleton_self d)))
    have hsplit : decodeAll empty start (before ++ c :: middle) =
        middle.foldl Run.decodePicture ((decodeAll empty start before).decodePicture c) := by
      rw [decodeAll, List.foldl_append, List.foldl_cons]
      rfl
    rw [← hsplit] at hready
    refine hready.referencePicture (hbefore.ready d)
      (List.mem_append_right _ List.mem_cons_self) ?_
    rw [hcoded, show before ++ c :: (middle ++ d :: behind) =
      (before ++ c :: middle) ++ d :: behind by simp, List.map_append] at hdistinct
    exact (List.nodup_append.1 hdistinct).1
  · intro hreorder hfree
    have hordered := Ordered.decodeAll hnew rfl hdistinct hreorder hfree
      ⟨List.Pairwise.nil, fun o ho => by cases ho⟩
    rw [← List.append_nil coded] at hdistinct hreorder
    have hroom := hall.room hdistinct hreorder
    have hsorted := hordered.finish hroom.1
    rw [show run.emitted.map Prod.fst = _ from hfinish.2.2.2]
    exact hsorted

/-- A bump only takes waiting pictures away. -/
theorem Evaluated.overLatency_eq_false {x : Dpb α} (h : Evaluated shouldBump dpb x)
    (hfree : dpb.overLatency = false) : x.overLatency = false := by
  induction h with
  | here dpb => exact hfree
  | later _ honce _ ih =>
      refine ih ?_
      rename_i dpb next x poc _ _
      unfold bumpOnce at honce
      split at honce
      · cases honce
      cases honce
      rw [overLatency, Option.any_eq_false] at hfree ⊢
      intro bound hbound
      rw [List.any_eq_false]
      intro e he
      rcases List.mem_iff_getElem.1 he with ⟨i, hi, rfl⟩
      rw [List.length_modify] at hi
      have hbefore : dpb.entries.any (fun e => e.neededForOutput && decide (bound ≤ e.latencyCount)) =
          false := by simpa using hfree bound hbound
      have hold := List.any_eq_false.1 hbefore _ (List.getElem_mem hi)
      rw [List.getElem_modify]
      split
      · simp
      · exact hold

theorem Evaluated.eq_of_done {x : Dpb α} (h : Evaluated shouldBump dpb x)
    (hdone : shouldBump dpb = false) : x = dpb := by
  cases h with
  | here => rfl
  | later hshould _ _ =>
      rw [hdone] at hshould
      cases hshould

/-- No output is forced at a picture before which nothing is bumped and behind which none has
waited too long. -/
theorem unforced_cons (hdone : shouldBumpPre (r.apply c.sets).dpb = false)
    (hlatency : (((r.ready c).stored c).dpb.countLatency c.poc).overLatency = false)
    (hrest : Unforced (r.decodePicture c) rest) : Unforced r (c :: rest) := by
  refine ⟨fun x hx => ?_, fun x hx => hx.overLatency_eq_false hlatency, hrest⟩
  rw [hx.eq_of_done hdone]
  simp only [shouldBumpPre, Bool.or_eq_false_iff] at hdone
  exact ⟨hdone.1.2, hdone.2⟩

theorem reorderAtMost_of_take {coded : List (CodedPicture α)}
    (h : ∀ (k : Nat) (hk : k < coded.length),
      (coded.take k).countP (fun b => decide (coded[k].poc < b.poc)) ≤ n) :
    ReorderAtMost n coded := by
  rintro before c behind rfl
  have hk : before.length < (before ++ c :: behind).length := by simp
  have hcount := h before.length hk
  simpa using hcount

/-- Six pictures in the order of a pyramid, the last of which is not output. -/
def pyramid : List (CodedPicture Unit) :=
  [⟨⟨[], [], []⟩, 0, true, ⟨(), 6⟩⟩, ⟨⟨[0], [], []⟩, 8, true, ⟨(), 5⟩⟩,
    ⟨⟨[0], [8], []⟩, 4, true, ⟨(), 4⟩⟩, ⟨⟨[0], [4], [8]⟩, 2, true, ⟨(), 3⟩⟩,
    ⟨⟨[4], [8], []⟩, 6, true, ⟨(), 2⟩⟩, ⟨⟨[8], [], []⟩, 10, false, ⟨(), 1⟩⟩]

/-- A budget that was charged for the pictures of the pyramid. -/
def pyramidBudget : Budget :=
  ⟨⟨32, 32, by decide⟩, 21, 0⟩

theorem unforced_pyramid : Unforced ⟨Dpb.new 4 2 3, pyramidBudget, []⟩ pyramid :=
  unforced_cons (by decide +kernel) (by decide +kernel) <|
    unforced_cons (by decide +kernel) (by decide +kernel) <|
    unforced_cons (by decide +kernel) (by decide +kernel) <|
    unforced_cons (by decide +kernel) (by decide +kernel) <|
    unforced_cons (by decide +kernel) (by decide +kernel) <|
    unforced_cons (by decide +kernel) (by decide +kernel) trivial

theorem dpb_outputs_pyramid :
    (decodeAll (Dpb.new 4 2 3) pyramidBudget pyramid).finish.emitted.map Prod.fst =
        [0, 2, 4, 6, 8] ∧
      (decodeAll (Dpb.new 4 2 3) pyramidBudget pyramid).finish.budget.committed = 0 ∧
      ((decodeAll (Dpb.new 4 2 3) pyramidBudget (pyramid.take 5)).ready
        ⟨⟨[8], [], []⟩, 10, false, ⟨(), 1⟩⟩).dpb.referencePicture 8 = some ⟨(), 5⟩ := by
  rcases dpb_outputs 4 2 3 pyramidBudget pyramid (by decide) with
    ⟨-, hperm, hbudget, hreference, hordered⟩
  have hreorder : ReorderAtMost 2 pyramid := reorderAtMost_of_take (by decide)
  have hsorted := hordered hreorder unforced_pyramid
  refine ⟨?_, ?_, ?_⟩
  · refine List.Perm.eq_of_pairwise ?_ hsorted (by decide) (hperm.trans (by decide))
    intro a b _ _ hab hba
    exact absurd hab hba.asymm
  · rw [hbudget]
    decide +kernel
  · have htake : pyramid.take 5 = [⟨⟨[], [], []⟩, 0, true, ⟨(), 6⟩⟩] ++
        ⟨⟨[0], [], []⟩, 8, true, ⟨(), 5⟩⟩ :: (pyramid.take 5).drop 2 := rfl
    rw [htake]
    exact hreference _ ⟨⟨[0], [], []⟩, 8, true, ⟨(), 5⟩⟩ _ ⟨⟨[8], [], []⟩, 10, false, ⟨(), 1⟩⟩ []
      rfl (by decide)

/-! ## Bounds of the buffer -/

theorem Dpb.Bumps.maxDecPicBuffering_eq {shouldBump : Dpb α → Bool}
    (h : Bumps shouldBump dpb outs dpb') :
    dpb'.maxDecPicBuffering = dpb.maxDecPicBuffering := by
  induction h with
  | stop => rfl
  | output _ honce _ ih =>
      rw [ih]
      unfold bumpOnce at honce
      split at honce
      · cases honce
      · cases honce
        rfl

/-- A picture is decoded where the buffer has room, or holds references of the picture only. -/
theorem room_of_ready (r : Run α) (c : CodedPicture α) :
    (r.ready c).dpb.entries.length < (r.ready c).dpb.maxDecPicBuffering ∨
      ∀ e ∈ (r.ready c).dpb.entries, c.sets.kept e.poc = true := by
  rcases bumpWhile_done shouldBumpPre (r.apply c.sets).dpb with hdone | hnone
  · left
    simp only [shouldBumpPre, Bool.or_eq_false_iff, overCapacity, decide_eq_false_iff_not,
      not_le] at hdone
    exact hdone.2
  · right
    intro e he
    rcases List.mem_filter.1 he with ⟨hmem, hstays⟩
    have hcore : e.core ∈ (r.apply c.sets).dpb.cores := by
      rw [← (bumps_bumpWhile shouldBumpPre (r.apply c.sets).dpb).spec.2.1]
      exact List.mem_map_of_mem hmem
    have hread : e.neededForOutput = false := by
      have hempty := List.filter_eq_nil_iff.1 (List.map_eq_nil_iff.1 hnone) e hmem
      simpa using hempty
    rcases List.mem_map.1 hcore with ⟨kept, hkept, hsame⟩
    rcases List.mem_map.1 (List.mem_of_mem_filter hkept) with ⟨old, -, rfl⟩
    -- what does not wait stays as a reference, and the sets have marked it
    simp only [DpbEntry.core, Prod.mk.injEq] at hsame
    simp only [DpbEntry.stays, hread, ← hsame.2.2, Bool.false_or] at hstays
    rw [← hsame.1]
    by_contra hnot
    simp [hnot] at hstays

/-- Behind a picture no more wait than are reordered, none too long, and nothing is new in the
buffer. -/
theorem bounds_of_bumpPostDecode (dpb : Dpb α) (poc : Int) (budget : Budget) :
    let last := ((dpb.bumpPostDecode poc).2.reapUnused budget).1
    last.pending.length ≤ last.maxNumReorderPics ∧
      (∀ bound ∈ last.spsMaxLatencyPictures, ∀ e ∈ last.entries,
        e.neededForOutput = true → e.latencyCount < bound) ∧
      last.maxDecPicBuffering = dpb.maxDecPicBuffering ∧
      last.entries.length ≤ dpb.entries.length ∧
      ∀ e ∈ last.entries, ∃ old ∈ dpb.entries, old.poc = e.poc := by
  have hbumps := bumps_bumpWhile shouldBumpPost (dpb.countLatency poc)
  have hdone := bumpWhile_done shouldBumpPost (dpb.countLatency poc)
  have hpairs := (pairs_of_cores hbumps.spec.2.1).trans (pairs_countLatency dpb poc)
  have hcapacity := hbumps.maxDecPicBuffering_eq
  rw [bumpPostDecode]
  generalize (bumpWhile shouldBumpPost (dpb.countLatency poc)).2 = bumped at hdone hpairs hcapacity ⊢
  simp only [shouldBumpPost, Bool.or_eq_false_iff, overReorder, overLatency,
    decide_eq_false_iff_not, not_lt] at hdone
  have hentries : (bumped.reapUnused budget).1.entries = bumped.entries.filter DpbEntry.stays := rfl
  refine ⟨?_, ?_, hcapacity, ?_, ?_⟩
  · rw [reapUnused, pending_removeUnused]
    rcases hdone with hdone | hnone
    · exact (List.length_map DpbEntry.poc).trans_le hdone.1
    · rw [hnone]
      exact Nat.zero_le _
  · intro bound hbound e he hneeded
    rw [hentries] at he
    have hmem := List.mem_of_mem_filter he
    rcases hdone with hdone | hnone
    · have hlatency := hdone.2
      rw [show bumped.spsMaxLatencyPictures = some bound from hbound] at hlatency
      have hshort := List.any_eq_false.1 hlatency e hmem
      simpa [hneeded] using hshort
    · have hwaits : e.poc ∈ bumped.pending :=
        List.mem_map_of_mem (List.mem_filter.2 ⟨hmem, hneeded⟩)
      rw [hnone] at hwaits
      cases hwaits
  · have hlength := congrArg List.length hpairs
    rw [List.length_map, List.length_map] at hlength
    rw [hentries]
    exact (List.length_filter_le _ _).trans_eq hlength
  · intro e he
    rw [hentries] at he
    have hpair := List.mem_map_of_mem (f := pairOf) (List.mem_of_mem_filter he)
    rw [hpairs] at hpair
    rcases List.mem_map.1 hpair with ⟨old, hold, hsame⟩
    exact ⟨old, hold, congrArg Prod.fst hsame⟩

/-- After every picture no more wait than are reordered, none has waited too long, and the buffer is
not overfull, unless with references of the picture itself. -/
theorem dpb_within_bounds (dpb : Dpb α) (start : Budget) (coded : List (CodedPicture α))
    (c : CodedPicture α) :
    let last := (decodeAll dpb start (coded ++ [c])).dpb
    last.pending.length ≤ last.maxNumReorderPics ∧
      (∀ bound ∈ last.spsMaxLatencyPictures, ∀ e ∈ last.entries,
        e.neededForOutput = true → e.latencyCount < bound) ∧
      (last.entries.length ≤ last.maxDecPicBuffering ∨
        ∀ e ∈ last.entries, e.poc = c.poc ∨ c.sets.kept e.poc = true) := by
  have hlast : ∀ r : Run α, (r.decodePicture c).dpb =
      ((((r.ready c).stored c).dpb.bumpPostDecode c.poc).2.reapUnused (r.ready c).budget).1 := by
    intro r
    rw [Run.decodePicture, Run.reap, Run.emit]
    simp only [Run.stored]
  rw [decodeAll, List.foldl_append, List.foldl_cons, List.foldl_nil, hlast]
  generalize coded.foldl Run.decodePicture ⟨dpb, start, []⟩ = r
  rcases bounds_of_bumpPostDecode ((r.ready c).stored c).dpb c.poc (r.ready c).budget with
    ⟨hwait, hlatency, hcapacity, hlength, hold⟩
  refine ⟨hwait, hlatency, ?_⟩
  rcases room_of_ready r c with hroom | hkept
  · left
    exact (hlength.trans (List.length_append.trans_le hroom)).trans_eq hcapacity.symm
  · right
    intro e he
    rcases hold e he with ⟨old, hmem, hsame⟩
    rw [← hsame]
    rcases List.mem_append.1 hmem with hmem | hnew
    · exact Or.inr (hkept old hmem)
    · exact Or.inl (List.mem_singleton.1 hnew ▸ rfl)

end Hevc
end Vaco
