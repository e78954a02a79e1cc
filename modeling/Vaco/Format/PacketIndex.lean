import Mathlib.Order.WithBot
import Vaco.Core.Time
import Vaco.Library.SortedKeys

/-!
# The packet index

Seek points of a stream, sorted by timestamp.  A new entry is put where it belongs or replaces
the entry of its timestamp; before a full index takes a new timestamp, every second entry that is
no keyframe is dropped, or every second entry if that drops nothing.

Main results:

- `PacketIndex.Holds.add`: what one more entry keeps.
- `PacketIndex.index_keeps_way_back`: what every index keeps.

Current gaps:

- Byte positions, sizes and distances are kept as natural numbers.
-/

namespace Vaco
namespace Format

open Library SortedKeys Vaco.Core

/-- What an index entry says about the packet at its position. -/
structure IndexFlags where
  keyframe : Bool
  discard : Bool
deriving DecidableEq

/-- One seek point. -/
structure IndexEntry where
  pos : Nat
  timestamp : Timestamp
  flags : IndexFlags
  size : Nat
  minDistance : Nat
deriving DecidableEq

namespace IndexEntry

/-- A keyframe entry. -/
def keyframe (pos : Nat) (ts : Timestamp) : IndexEntry :=
  ⟨pos, ts, ⟨true, false⟩, 0, 0⟩

/-- Whether decoding may start here. -/
def isKey (e : IndexEntry) : Bool :=
  e.flags.keyframe

/-- The ticks that entries are ordered by; an entry without a timestamp stands before all. -/
def ticks (e : IndexEntry) : WithBot Int :=
  e.timestamp.map Ranged.val

/-- Whether an entry stands before some ticks. -/
def isBefore (ts : Int) (e : IndexEntry) : Bool :=
  match e.timestamp with
  | some v => decide (v.val < ts)
  | none => true

theorem isBefore_eq (ts : Int) (e : IndexEntry) :
    e.isBefore ts = decide (e.ticks < (ts : WithBot Int)) := by
  rw [isBefore, ticks]
  cases e.timestamp with
  | none => exact (decide_eq_true (WithBot.bot_lt_coe ts)).symm
  | some v => exact decide_eq_decide.mpr WithBot.coe_lt_coe.symm

end IndexEntry

/-- How a seek point is chosen, as far as the index looks at it. -/
structure SeekFlags where
  backward : Bool
  any : Bool
deriving DecidableEq

/-- One stream's seek points. -/
structure PacketIndex where
  entries : List IndexEntry
  maxEntries : Nat
  decimations : Nat
deriving DecidableEq

namespace PacketIndex

/-- The bytes of one entry. -/
def entrySize : Nat := 40

def withOptions (indexmem : I32) : PacketIndex :=
  let bytes := if 0 ≤ indexmem.val then indexmem.val.toNat else 1048576
  ⟨[], max (bytes / entrySize) 2, 0⟩

/-- Binary search by raw ticks: the entry's place, or the place where it is missing. -/
def searchRaw (self : PacketIndex) (ts : Int) : Except Nat Nat :=
  let place := (self.entries.takeWhile (IndexEntry.isBefore ts)).length
  if (self.entries[place]?.bind IndexEntry.timestamp).map Ranged.val = some ts then .ok place
  else .error place

/-- The entries without every second one that is no keyframe, counted on from some; the first and
the last stay. -/
def dropNonKeys (last : Nat) : Nat → List (IndexEntry × Nat) → List IndexEntry
  | _, [] => []
  | seenNonKey, (e, i) :: rest =>
      if e.isKey then e :: dropNonKeys last seenNonKey rest
      else if ¬ (i = 0 ∨ i = last) ∧ (seenNonKey + 1) % 2 = 0 then
        dropNonKeys last (seenNonKey + 1) rest
      else e :: dropNonKeys last (seenNonKey + 1) rest

/-- Every second entry, with the first and the last. -/
def thin (last : Nat) (entries : List (IndexEntry × Nat)) : List IndexEntry :=
  (entries.filter fun p => decide (p.2 = 0 ∨ p.2 = last ∨ p.2 % 2 = 1)).map Prod.fst

/-- Halve the index. -/
def decimate (self : PacketIndex) : PacketIndex :=
  let last := self.entries.length - 1
  let kept := dropNonKeys last 0 self.entries.zipIdx
  { self with
    entries :=
      if self.entries.length ≤ kept.length then thin last self.entries.zipIdx else kept
    decimations := min (self.decimations + 1) 4294967295 }

def makeRoom (self : PacketIndex) (ts : Int) : PacketIndex :=
  if self.maxEntries ≤ self.entries.length ∧ (self.searchRaw ts).toOption = none then
    self.decimate
  else self

/-- Insert or refresh one entry. -/
def add (self : PacketIndex) (entry : IndexEntry) : PacketIndex :=
  match entry.timestamp with
  | none => self
  | some ts =>
      let self := self.makeRoom ts.val
      match self.searchRaw ts.val with
      | .ok place => { self with entries := self.entries.set place entry }
      | .error place =>
          let place := min place self.entries.length
          { self with entries := self.entries.take place ++ entry :: self.entries.drop place }

/-- The entry that a seek should land on. -/
def search (self : PacketIndex) (ts : Timestamp) (flags : SeekFlags) : Option IndexEntry :=
  ts.bind fun want =>
    let usable (e : IndexEntry) : Bool := (flags.any || e.isKey) && !e.flags.discard
    if flags.backward then
      let stop := match self.searchRaw want.val with
        | .ok i => i + 1
        | .error i => i
      if self.entries.length < stop then none else (self.entries.take stop).reverse.find? usable
    else
      let start := match self.searchRaw want.val with
        | .ok i => i
        | .error i => i
      if self.entries.length < start then none else (self.entries.drop start).find? usable

/-- Any entries, one after another. -/
def addAll (self : PacketIndex) (entries : List IndexEntry) : PacketIndex :=
  entries.foldl add self

/-! ## Decimation -/

variable {last seen : Nat} {l : List (IndexEntry × Nat)}

theorem dropNonKeys_sublist (last seen : Nat) (l : List (IndexEntry × Nat)) :
    (dropNonKeys last seen l).Sublist (l.map Prod.fst) := by
  induction l generalizing seen with
  | nil => exact List.Sublist.slnil
  | cons p l ih =>
      rw [dropNonKeys, List.map_cons]
      split
      · exact (ih _).cons_cons _
      · split
        · exact (ih _).cons _
        · exact (ih _).cons_cons _

theorem mem_dropNonKeys {e : IndexEntry} {i : Nat} (hmem : (e, i) ∈ l)
    (hkeep : e.isKey = true ∨ i = 0 ∨ i = last) : e ∈ dropNonKeys last seen l := by
  induction l generalizing seen with
  | nil => cases hmem
  | cons p l ih =>
      rw [dropNonKeys]
      rcases List.mem_cons.mp hmem with rfl | hmem
      · split
        · exact List.mem_cons_self
        · rename_i hkey
          rw [if_neg fun hdrop => hdrop.1 (hkeep.resolve_left hkey)]
          exact List.mem_cons_self
      · split
        · exact List.mem_cons_of_mem _ (ih hmem)
        · split
          · exact ih hmem
          · exact List.mem_cons_of_mem _ (ih hmem)

theorem thin_sublist (last : Nat) (l : List (IndexEntry × Nat)) :
    (thin last l).Sublist (l.map Prod.fst) :=
  List.filter_sublist.map _

theorem length_dropNonKeys_lt {a b : IndexEntry} {rest : List IndexEntry} (ha : a.isKey = false)
    (hb : b.isKey = false) (hrest : rest ≠ []) :
    (dropNonKeys (rest.length + 1) 0 (a :: b :: rest).zipIdx).length < rest.length + 2 := by
  have hpos := List.length_pos_iff.mpr hrest
  have hlen := (dropNonKeys_sublist (rest.length + 1) 2 (rest.zipIdx 2)).length_le
  rw [List.length_map, List.length_zipIdx] at hlen
  rw [List.zipIdx_cons, List.zipIdx_cons, dropNonKeys, if_neg (by rw [ha]; exact Bool.noConfusion),
    if_neg (fun h => h.1 (.inl rfl)), dropNonKeys, if_neg (by rw [hb]; exact Bool.noConfusion),
    if_pos ⟨by omega, rfl⟩, List.length_cons]
  exact Nat.succ_lt_succ (Nat.lt_succ_of_le hlen)

theorem length_thin_lt {entries : List IndexEntry} (h : 4 ≤ entries.length) :
    (thin (entries.length - 1) entries.zipIdx).length < entries.length := by
  have hmem : (entries[2], 2) ∈ entries.zipIdx := List.mk_mem_zipIdx_iff_getElem?.mpr
    (List.getElem?_eq_getElem (by omega))
  have hless := List.length_filter_lt_length_iff_exists (p := fun p : IndexEntry × Nat =>
    decide (p.2 = 0 ∨ p.2 = entries.length - 1 ∨ p.2 % 2 = 1)).mpr ⟨_, hmem, by
      rw [decide_eq_true_iff]
      omega⟩
  rw [List.length_zipIdx] at hless
  rw [thin, List.length_map]
  exact hless

variable (self : PacketIndex)

/-- What a decimation keeps: the order, the ends and the first keyframe. -/
structure Kept (before after : List IndexEntry) : Prop where
  sublist : after.Sublist before
  ends : ∀ (i : Nat) (e : IndexEntry), before[i]? = some e → i = 0 ∨ i = before.length - 1 →
    e ∈ after
  firstKey : ∀ (i : Nat) (e : IndexEntry), before[i]? = some e → e.isKey = true →
    ∃ j ≤ i, ∃ k, before[j]? = some k ∧ k.isKey = true ∧ k ∈ after
  shorter : 4 ≤ before.length → after.length < before.length

theorem decimate_keeps : Kept self.entries self.decimate.entries := by
  have hzip : ∀ (i : Nat) (e : IndexEntry), self.entries[i]? = some e →
      (e, i) ∈ self.entries.zipIdx := fun i e he => List.mk_mem_zipIdx_iff_getElem?.mpr he
  rw [decimate]
  dsimp only
  split
  · -- No entry was dropped, so a keyframe stands at one of the first two places.
    rename_i hall
    have hthin : ∀ (i : Nat) (e : IndexEntry), self.entries[i]? = some e →
        (i = 0 ∨ i = self.entries.length - 1 ∨ i % 2 = 1) →
        e ∈ thin (self.entries.length - 1) self.entries.zipIdx := by
      intro i e he hi
      exact List.mem_map.mpr ⟨(e, i), List.mem_filter.mpr ⟨hzip i e he, decide_eq_true hi⟩, rfl⟩
    refine ⟨?_, fun i e he hi => hthin i e he (by omega), ?_, length_thin_lt⟩
    · have hsub := thin_sublist (self.entries.length - 1) self.entries.zipIdx
      rwa [List.zipIdx_map_fst] at hsub
    · intro i e he hkey
      by_cases hi : i < 2
      · exact ⟨i, le_rfl, e, he, hkey, hthin i e he (by omega)⟩
      · rcases hentries : self.entries with _ | ⟨a, _ | ⟨b, rest⟩⟩
        · rw [hentries] at he
          cases he
        · rw [hentries, List.getElem?_eq_none (by rw [List.length_singleton]; omega)] at he
          cases he
        · have hthin' := hthin
          simp only [hentries] at hthin' he hall ⊢
          cases ha : a.isKey with
          | true => exact ⟨0, Nat.zero_le _, a, rfl, ha, hthin' 0 a rfl (.inl rfl)⟩
          | false =>
              cases hb : b.isKey with
              | true => exact ⟨1, by omega, b, rfl, hb, hthin' 1 b rfl (.inr (.inr rfl))⟩
              | false =>
                  have hrest : rest ≠ [] := by
                    rintro rfl
                    rw [List.getElem?_eq_none (by simp; omega)] at he
                    cases he
                  exact absurd hall (not_le.mpr (length_dropNonKeys_lt ha hb hrest))
  · rename_i hsome
    refine ⟨?_, ?_, ?_, fun _ => not_le.mp hsome⟩
    · have hsub := dropNonKeys_sublist (self.entries.length - 1) 0 self.entries.zipIdx
      rwa [List.zipIdx_map_fst] at hsub
    · intro i e he hi
      exact mem_dropNonKeys (hzip i e he) (.inr hi)
    · intro i e he hkey
      exact ⟨i, le_rfl, e, he, hkey, mem_dropNonKeys (hzip i e he) (.inl hkey)⟩

/-! ## Adding -/

/-- Entries that increase strictly in ticks. -/
abbrev Sorted (entries : List IndexEntry) : Prop :=
  entries.Pairwise fun a b => a.ticks < b.ticks

variable {self} {entry : IndexEntry} {ts : I64}

theorem ticks_eq (h : entry.timestamp = some ts) : entry.ticks = (ts.val : WithBot Int) := by
  rw [IndexEntry.ticks, h]
  rfl

theorem timestamp_eq {e : IndexEntry} (h : e.ticks = (ts.val : WithBot Int)) :
    e.timestamp = some ts := by
  rw [IndexEntry.ticks] at h
  cases he : e.timestamp with
  | none =>
      rw [he] at h
      cases h
  | some v =>
      rw [he] at h
      exact congrArg some (Ranged.ext (WithBot.coe_injective h))

theorem searchRaw_eq (s : Split IndexEntry.ticks (ts.val : WithBot Int) self.entries) :
    self.searchRaw ts.val =
      if s.same.isSome then .ok s.before.length else .error s.before.length := by
  have hbefore : self.entries.takeWhile (IndexEntry.isBefore ts.val) = s.before := by
    rw [← s.takeWhile_eq]
    exact congrArg (List.takeWhile · _) (funext (IndexEntry.isBefore_eq ts.val))
  rw [searchRaw, hbefore, s.getElem?_before]
  cases hsame : s.same with
  | some x =>
      have hx := timestamp_eq (s.same_eq x hsame)
      simp [hx]
  | none =>
      have hne : (([] ++ s.behind)[0]?.bind IndexEntry.timestamp).map Ranged.val ≠ some ts.val := by
        intro h
        rcases Option.map_eq_some_iff.mp h with ⟨v, hv, hval⟩
        rcases Option.bind_eq_some_iff.mp hv with ⟨x, hx, hxv⟩
        have hlt := s.lt_behind x (List.mem_of_getElem? hx)
        rw [ticks_eq hxv, hval] at hlt
        exact lt_irrefl _ hlt
      simp only [Option.toList_none, Option.isSome_none]
      exact if_neg hne

theorem makeRoom_sublist (self : PacketIndex) (ts : Int) :
    (self.makeRoom ts).entries.Sublist self.entries := by
  rw [makeRoom]
  split
  · exact (decimate_keeps self).sublist
  · exact List.Sublist.refl _

theorem exists_add (hsorted : Sorted self.entries) (hts : entry.timestamp = some ts) :
    ∃ s : Split IndexEntry.ticks (ts.val : WithBot Int) (self.makeRoom ts.val).entries,
      (self.add entry).entries = s.before ++ entry :: s.behind := by
  rcases exists_split (hsorted.sublist (self.makeRoom_sublist ts.val)) (ts.val : WithBot Int) with ⟨s⟩
  refine ⟨s, ?_⟩
  rw [add, hts]
  dsimp only
  rw [searchRaw_eq s]
  cases hsame : s.same with
  | some x =>
      rw [Option.isSome_some, if_pos rfl]
      exact s.set_before hsame
  | none =>
      rw [Option.isSome_none, if_neg Bool.false_ne_true]
      dsimp only
      rw [Nat.min_eq_left s.length_before_le]
      exact s.insert_before hsame

/-! ## Making room -/

theorem ticks_le_of_le (hsorted : Sorted self.entries) {i j : Nat} {a b : IndexEntry} (hij : i ≤ j)
    (ha : self.entries[i]? = some a) (hb : self.entries[j]? = some b) : a.ticks ≤ b.ticks := by
  rcases List.getElem?_eq_some_iff.mp ha with ⟨hi, rfl⟩
  rcases List.getElem?_eq_some_iff.mp hb with ⟨hj, rfl⟩
  rcases Nat.lt_or_eq_of_le hij with hlt | rfl
  · exact (List.pairwise_iff_getElem.mp hsorted i j hi hj hlt).le
  · exact le_rfl

/-- Entries at or before and at or behind each entry, and a keyframe at or before each keyframe. -/
structure Reaches (after : List IndexEntry) (e : IndexEntry) : Prop where
  first : ∃ a ∈ after, a.ticks ≤ e.ticks
  last : ∃ b ∈ after, e.ticks ≤ b.ticks
  key : e.isKey = true → ∃ k ∈ after, k.isKey = true ∧ k.ticks ≤ e.ticks

theorem Reaches.of_mem {after : List IndexEntry} {e : IndexEntry} (h : e ∈ after) :
    Reaches after e :=
  ⟨⟨e, h, le_rfl⟩, ⟨e, h, le_rfl⟩, fun hkey => ⟨e, h, hkey, le_rfl⟩⟩

theorem Reaches.trans {before after : List IndexEntry} {e : IndexEntry} (h : Reaches before e)
    (hall : ∀ x ∈ before, Reaches after x) : Reaches after e := by
  rcases h.first with ⟨a, ha, hae⟩
  rcases h.last with ⟨b, hb, heb⟩
  rcases (hall a ha).first with ⟨a', ha', hle⟩
  rcases (hall b hb).last with ⟨b', hb', hle'⟩
  refine ⟨⟨a', ha', hle.trans hae⟩, ⟨b', hb', heb.trans hle'⟩, fun hkey => ?_⟩
  rcases h.key hkey with ⟨k, hk, hkkey, hke⟩
  rcases (hall k hk).key hkkey with ⟨k', hk', hkkey', hle''⟩
  exact ⟨k', hk', hkkey', hle''.trans hke⟩

theorem reaches_makeRoom (hsorted : Sorted self.entries) (ts : Int) {e : IndexEntry}
    (he : e ∈ self.entries) : Reaches (self.makeRoom ts).entries e := by
  rw [makeRoom]
  split
  · have hkept := decimate_keeps self
    rcases List.getElem?_of_mem he with ⟨i, hi⟩
    have hlen : i < self.entries.length := (List.getElem?_eq_some_iff.mp hi).1
    have hfirst := List.getElem?_eq_getElem (show 0 < self.entries.length by omega)
    have hlast := List.getElem?_eq_getElem
      (show self.entries.length - 1 < self.entries.length by omega)
    refine ⟨⟨_, hkept.ends 0 _ hfirst (.inl rfl), ?_⟩, ⟨_, hkept.ends _ _ hlast (.inr rfl), ?_⟩,
      fun hkey => ?_⟩
    · exact ticks_le_of_le hsorted (Nat.zero_le i) hfirst hi
    · exact ticks_le_of_le hsorted (by omega) hi hlast
    · rcases hkept.firstKey i e hi hkey with ⟨j, hj, k, hk, hkkey, hmem⟩
      exact ⟨k, hmem, hkkey, ticks_le_of_le hsorted hj hk hi⟩
  · exact Reaches.of_mem he

theorem maxEntries_makeRoom (ts : Int) : (self.makeRoom ts).maxEntries = self.maxEntries := by
  rw [makeRoom]
  split <;> rfl

theorem maxEntries_add (self : PacketIndex) (entry : IndexEntry) :
    (self.add entry).maxEntries = self.maxEntries := by
  rw [add]
  split
  · rfl
  · dsimp only
    split <;> exact maxEntries_makeRoom _

theorem makeRoom_cases (self : PacketIndex) (ts : Int) :
    (self.makeRoom ts = self.decimate ∧ self.maxEntries ≤ self.entries.length) ∨
      self.makeRoom ts = self ∧
        (self.entries.length < self.maxEntries ∨ (self.searchRaw ts).toOption ≠ none) := by
  rw [makeRoom]
  split
  · rename_i hfull
    exact .inl ⟨rfl, hfull.1⟩
  · rename_i hfull
    rw [not_and_or, not_le] at hfull
    exact .inr ⟨rfl, hfull⟩

/-- A full index makes room for what is not there. -/
theorem length_add_le (hsorted : Sorted self.entries) (hts : entry.timestamp = some ts) :
    (self.add entry).entries.length ≤ max self.entries.length (max self.maxEntries 4) := by
  rcases exists_add hsorted hts with ⟨s, hadd⟩
  have hput := s.length_put (e := entry)
  rw [← hadd] at hput
  rcases self.makeRoom_cases ts.val with ⟨hroom, -⟩ | ⟨hroom, hfree⟩
  · have hlen := congrArg (List.length ∘ entries) hroom
    have hless := (decimate_keeps self).sublist.length_le
    have hshort := (decimate_keeps self).shorter
    simp only [Function.comp_apply] at hlen
    omega
  · have hlen := congrArg (List.length ∘ entries) hroom
    simp only [Function.comp_apply] at hlen
    rcases hfree with hfree | hthere
    · omega
    · have hfound : ((self.makeRoom ts.val).searchRaw ts.val).toOption ≠ none := by
        rw [hroom]
        exact hthere
      cases hsame : s.same with
      | some x =>
          rw [hsame, Option.toList_some, List.length_singleton] at hput
          omega
      | none =>
          rw [searchRaw_eq s, hsame] at hfound
          exact absurd rfl hfound

/-! ## Every run -/

/-- What an index holds of the entries that were added. -/
structure Holds (added : List IndexEntry) (index : PacketIndex) : Prop where
  sorted : Sorted index.entries
  latest : ∀ e ∈ index.entries, e.timestamp ≠ none ∧
    added.reverse.find? (fun a => decide (a.timestamp = e.timestamp)) = some e
  reaches : ∀ e ∈ added, e.timestamp ≠ none → Reaches index.entries e
  bounded : index.entries.length ≤ max index.maxEntries 4

theorem holds_withOptions (indexmem : I32) : Holds [] (withOptions indexmem) where
  sorted := List.Pairwise.nil
  latest := fun _ he => absurd he List.not_mem_nil
  reaches := fun _ he => absurd he List.not_mem_nil
  bounded := Nat.zero_le _

/-- Adding an entry keeps what the index holds. -/
theorem Holds.add {added : List IndexEntry} (h : Holds added self) (entry : IndexEntry)
    (hkeys : ∀ a ∈ added, a.timestamp ≠ none → a.timestamp = entry.timestamp →
      a.isKey = entry.isKey) :
    Holds (added ++ [entry]) (self.add entry) := by
  cases hts : entry.timestamp with
  | none =>
      have hsame : self.add entry = self := by
        rw [PacketIndex.add, hts]
      rw [hsame]
      refine ⟨h.sorted, fun e he => ⟨(h.latest e he).1, ?_⟩, fun e he hne => ?_, h.bounded⟩
      · rw [List.reverse_append, List.reverse_singleton, List.singleton_append,
          List.find?_cons_of_neg (by simpa [hts] using fun hn => (h.latest e he).1 hn.symm)]
        exact (h.latest e he).2
      · rcases List.mem_append.mp he with he | he
        · exact h.reaches e he hne
        · rw [List.mem_singleton.mp he] at hne
          exact absurd hts hne
  | some ts =>
      rcases exists_add h.sorted hts with ⟨s, hadd⟩
      have hticks := ticks_eq hts
      have hsub := self.makeRoom_sublist ts.val
      have hmem : ∀ x, x ∈ (self.add entry).entries ↔
          x = entry ∨ x ∈ (self.makeRoom ts.val).entries ∧ x.ticks ≠ entry.ticks := by
        intro x
        rw [hadd]
        exact s.mem_put hticks
      have hself : entry ∈ (self.add entry).entries := (hmem entry).mpr (.inl rfl)
      refine ⟨?_, ?_, ?_, ?_⟩
      · rw [hadd]
        exact s.pairwise_put (h.sorted.sublist hsub) hticks
      · intro e he
        rw [List.reverse_append, List.reverse_singleton, List.singleton_append]
        rcases (hmem e).mp he with rfl | ⟨he, hne⟩
        · exact ⟨by rw [hts]; exact Option.some_ne_none _,
            List.find?_cons_of_pos (decide_eq_true rfl)⟩
        · have hlatest := h.latest e (hsub.subset he)
          refine ⟨hlatest.1, ?_⟩
          rw [List.find?_cons_of_neg fun heq => hne ?_]
          · exact hlatest.2
          · exact congrArg (fun t : Timestamp => t.map Ranged.val) (of_decide_eq_true heq).symm
      · intro e he hne
        rcases List.mem_append.mp he with hold | hnew
        · refine Reaches.trans (h.reaches e hold hne) fun x hx => ?_
          refine Reaches.trans (reaches_makeRoom h.sorted ts.val hx) fun y hy => ?_
          by_cases hy' : y.ticks = entry.ticks
          · -- The entry takes the place of one that was a keyframe if it is one.
            have hlatest := (h.latest y (hsub.subset hy)).2
            have hin := List.mem_reverse.mp (List.mem_of_find?_eq_some hlatest)
            have hsome := (h.latest y (hsub.subset hy)).1
            have hstamp : y.timestamp = entry.timestamp := by
              rw [hts]
              exact timestamp_eq (hy'.trans hticks)
            exact ⟨⟨entry, hself, hy'.ge⟩, ⟨entry, hself, hy'.le⟩, fun hkey =>
              ⟨entry, hself, (hkeys y hin hsome hstamp).symm.trans hkey, hy'.ge⟩⟩
          · exact Reaches.of_mem ((hmem y).mpr (.inr ⟨hy, hy'⟩))
        · rw [List.mem_singleton.mp hnew]
          exact Reaches.of_mem hself
      · rw [maxEntries_add]
        have hlen := length_add_le h.sorted hts
        have hbound := h.bounded
        omega

theorem addAll_append_singleton (self : PacketIndex) (added : List IndexEntry)
    (entry : IndexEntry) : self.addAll (added ++ [entry]) = (self.addAll added).add entry :=
  List.foldl_append

/-- Entries of one timestamp that agree on whether they are keyframes. -/
def OneKey (added : List IndexEntry) : Prop :=
  ∀ a ∈ added, ∀ b ∈ added, a.timestamp ≠ none → a.timestamp = b.timestamp → a.isKey = b.isKey

theorem holds_addAll (indexmem : I32) {added : List IndexEntry} (hkeys : OneKey added) :
    Holds added ((withOptions indexmem).addAll added) := by
  induction added using List.reverseRecOn with
  | nil => exact holds_withOptions indexmem
  | append_singleton added entry ih =>
      have hfirst : ∀ a ∈ added, a ∈ added ++ [entry] := fun a ha => List.mem_append_left _ ha
      have hlast : entry ∈ added ++ [entry] := List.mem_append_right _ List.mem_cons_self
      rw [addAll_append_singleton]
      exact (ih fun a ha b hb => hkeys a (hfirst a ha) b (hfirst b hb)).add entry
        fun a ha => hkeys a (hfirst a ha) entry hlast

theorem maxEntries_addAll (added : List IndexEntry) :
    (self.addAll added).maxEntries = self.maxEntries := by
  induction added generalizing self with
  | nil => rfl
  | cons entry added ih => exact ih.trans (maxEntries_add self entry)

/-! ## Searching -/

/-- Seek to the keyframe at or before the target. -/
def BACKWARD : SeekFlags := ⟨true, false⟩

theorem search_backward (hsorted : Sorted self.entries) (want : I64) :
    ∃ upto : List IndexEntry, self.search (some want) BACKWARD =
        upto.reverse.find? (fun e => e.isKey && !e.flags.discard) ∧
      ∀ x, x ∈ upto ↔ x ∈ self.entries ∧ x.ticks ≤ (want.val : WithBot Int) := by
  rcases exists_split hsorted (want.val : WithBot Int) with ⟨s⟩
  have hstop : (match self.searchRaw want.val with
      | .ok i => i + 1
      | .error i => i) = (s.before ++ s.same.toList).length := by
    rw [searchRaw_eq s]
    cases hsame : s.same <;> simp
  have hlen : (s.before ++ s.same.toList).length ≤ self.entries.length := by
    rw [← s.take_upto]
    exact List.length_take_le' _ _
  refine ⟨s.before ++ s.same.toList, ?_, fun x => s.mem_upto⟩
  rw [search, Option.bind_some]
  dsimp only [BACKWARD]
  refine (if_pos rfl).trans ?_
  rw [hstop, if_neg (not_lt.mpr hlen), s.take_upto]
  rfl

/-- A sorted and bounded index with both ends, their latest entries and a keyframe to go back to. -/
structure KeepsWayBack (indexmem : I32) (added : List IndexEntry) (index : PacketIndex) :
    Prop where
  sorted : Sorted index.entries
  bounded : index.entries.length ≤ max (withOptions indexmem).maxEntries 4
  latest : ∀ e ∈ index.entries, e.timestamp ≠ none ∧
    added.reverse.find? (fun a => decide (a.timestamp = e.timestamp)) = some e
  least : ∀ e ∈ added, e.timestamp ≠ none →
    (∀ a ∈ added, a.timestamp ≠ none → e.ticks ≤ a.ticks) →
    ∃ x ∈ index.entries, x.timestamp = e.timestamp
  greatest : ∀ e ∈ added, e.timestamp ≠ none →
    (∀ a ∈ added, a.timestamp ≠ none → a.ticks ≤ e.ticks) →
    ∃ x ∈ index.entries, x.timestamp = e.timestamp
  backward : ∀ want : I64,
    if ∃ e ∈ added, e.timestamp ≠ none ∧ e.isKey = true ∧ e.ticks ≤ (want.val : WithBot Int) then
      ∃ k ∈ added, index.search (some want) BACKWARD = some k ∧ k.isKey = true ∧
        k.ticks ≤ (want.val : WithBot Int)
    else index.search (some want) BACKWARD = none

theorem index_keeps_way_back (indexmem : I32) (added : List IndexEntry)
    (hdiscard : ∀ e ∈ added, e.flags.discard = false) (hkeys : OneKey added) :
    KeepsWayBack indexmem added ((withOptions indexmem).addAll added) := by
  have h := holds_addAll indexmem hkeys
  have hfrom : ∀ e ∈ ((withOptions indexmem).addAll added).entries, e ∈ added := fun e he =>
    List.mem_reverse.mp (List.mem_of_find?_eq_some (h.latest e he).2)
  have hstamp : ∀ x ∈ ((withOptions indexmem).addAll added).entries, ∀ e : IndexEntry,
      x.ticks = e.ticks → x.timestamp = e.timestamp := by
    intro x hx e heq
    cases hxt : x.timestamp with
    | none => exact absurd hxt (h.latest x hx).1
    | some v => exact (timestamp_eq (heq.symm.trans (ticks_eq hxt))).symm
  refine ⟨h.sorted, ?_, h.latest, ?_, ?_, ?_⟩
  · have hbound := h.bounded
    rwa [maxEntries_addAll] at hbound
  · intro e he hne hleast
    rcases (h.reaches e he hne).first with ⟨x, hx, hle⟩
    have hge := hleast x (hfrom x hx) (h.latest x hx).1
    exact ⟨x, hx, hstamp x hx e (le_antisymm hle hge)⟩
  · intro e he hne hgreatest
    rcases (h.reaches e he hne).last with ⟨x, hx, hge⟩
    have hle := hgreatest x (hfrom x hx) (h.latest x hx).1
    exact ⟨x, hx, hstamp x hx e (le_antisymm hle hge)⟩
  · intro want
    rcases search_backward h.sorted want with ⟨upto, hsearch, hupto⟩
    rw [hsearch]
    split
    · rename_i hex
      rcases hex with ⟨e, he, hne, hkey, hle⟩
      rcases (h.reaches e he hne).key hkey with ⟨k, hk, hkkey, hke⟩
      have hin := (hupto k).mpr ⟨hk, hke.trans hle⟩
      have husable : (k.isKey && !k.flags.discard) = true := by
        rw [hkkey, hdiscard k (hfrom k hk)]
        rfl
      cases hfound : upto.reverse.find? fun e => e.isKey && !e.flags.discard with
      | none => exact absurd husable (List.find?_eq_none.mp hfound k (List.mem_reverse.mpr hin))
      | some r =>
          have hrin := (hupto r).mp (List.mem_reverse.mp (List.mem_of_find?_eq_some hfound))
          have hrusable := List.find?_some hfound
          exact ⟨r, hfrom r hrin.1, rfl, (Bool.and_eq_true_iff.mp hrusable).1, hrin.2⟩
    · rename_i hno
      refine List.find?_eq_none.mpr fun r hr husable => hno ?_
      have hrin := (hupto r).mp (List.mem_reverse.mp hr)
      exact ⟨r, hfrom r hrin.1, (h.latest r hrin.1).1, (Bool.and_eq_true_iff.mp husable).1, hrin.2⟩

/-- Keyframes and other entries, out of order. -/
def outOfOrder : List IndexEntry :=
  [.keyframe 300 (some (clampI64 30)), ⟨100, some (clampI64 10), ⟨false, false⟩, 0, 0⟩,
    .keyframe 200 (some (clampI64 20)), ⟨400, some (clampI64 40), ⟨false, false⟩, 0, 0⟩,
    .keyframe 201 (some (clampI64 20))]

theorem index_keeps_way_back_out_of_order :
    KeepsWayBack (castI32 1) outOfOrder ((withOptions (castI32 1)).addAll outOfOrder) :=
  index_keeps_way_back (castI32 1) outOfOrder (by decide) (by unfold OneKey; decide)

end PacketIndex

end Format
end Vaco
