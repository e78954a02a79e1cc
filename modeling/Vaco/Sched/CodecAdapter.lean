import Vaco.Sched.Progress

/-!
# The codec adapter between its wires

A codec node moves items from its input wire into a send and receive component and puts what
the component hands over on its output wire.  The component may refuse an item until it is
drained, and it has a tail of outputs after the end of its input.  Here every call of the
component is recorded, and the record is compared with the two wires.

Main results:

- `CodecWork.drain_feeding` and `CodecWork.offer_spec`: what one drain and one offer record.
- `CodecWork.advance_spec`: what one call of a codec that feeds records.
- `adapter_lossless`: in every schedule a component that obeys the protocol gets every item once and
  in order, then the end of its input once, and the output wire gets every value once and in order,
  then one close; a turn fails only where the component hands over as many values in a row as a
  drain may take.

Current gaps:

- The node has one input port and one output wire, as codec nodes do; items are in the time
  base of the component already.
-/

namespace Vaco
namespace Sched

open Library Vaco.Core

/-! ## The protocol -/

/-- Where a component is: it takes items, it owes an output, or it gives up its tail. -/
inductive Phase
  | feeding
  | refusing
  | draining
deriving DecidableEq

/-- A component that feeds accepts or refuses; one that refused has an output; one that accepted the
end hands over outputs, then ends. -/
structure Protocol (σ : Type) [Side σ] where
  phase : Phase → σ → Prop
  send_item : ∀ s item, phase .feeding s →
    ((Side.send s (some item)).1 = .ok () ∧ phase .feeding (Side.send s (some item)).2) ∨
      ((Side.send s (some item)).1 = .error .outputPending ∧
        phase .refusing (Side.send s (some item)).2)
  send_end : ∀ s, phase .feeding s →
    ((Side.send s none).1 = .ok () ∧ phase .draining (Side.send s none).2) ∨
      ((Side.send s none).1 = .error .outputPending ∧ phase .refusing (Side.send s none).2)
  recv_feeding : ∀ s, phase .feeding s →
    ((∃ v, (Side.recv s).1 = .ok v) ∨ (Side.recv s).1 = .error .needMoreInput) ∧
      phase .feeding (Side.recv s).2
  recv_refusing : ∀ s, phase .refusing s →
    (∃ v, (Side.recv s).1 = .ok v) ∧ phase .feeding (Side.recv s).2
  recv_draining : ∀ s, phase .draining s →
    ((∃ v, (Side.recv s).1 = .ok v) ∧ phase .draining (Side.recv s).2) ∨
      (Side.recv s).1 = .error .eof

/-! ## The record -/

/-- One call of a component, with its answer. -/
inductive Exchange
  | sent (item : Option Payload) (answer : Except Error Unit)
  | asked (answer : Except Error Payload)

/-- A component with the calls it answered. -/
structure Recorded (σ : Type) where
  side : σ
  log : List Exchange

instance {σ : Type} [Side σ] : Side (Recorded σ) where
  send s item :=
    ((Side.send s.side item).1,
      { side := (Side.send s.side item).2
        log := s.log ++ [.sent item (Side.send s.side item).1] })
  recv s :=
    ((Side.recv s.side).1,
      { side := (Side.recv s.side).2, log := s.log ++ [.asked (Side.recv s.side).1] })

/-- An offer and its answer; no item stands for the end of the input. -/
abbrev Offer := Option Payload × Except Error Unit

/-- An offer that was refused. -/
def Offer.refused (item : Option Payload) : Offer :=
  (item, .error .outputPending)

/-- An offer that was accepted. -/
def Offer.accepted (item : Option Payload) : Offer :=
  (item, .ok ())

/-- The offers made to a component. -/
def offers (log : List Exchange) : List Offer :=
  log.filterMap fun x =>
    match x with
    | .sent item answer => some (item, answer)
    | .asked _ => none

/-- The items a component accepted. -/
def acceptedItems (calls : List Offer) : List Payload :=
  calls.filterMap fun x =>
    match x with
    | (some item, .ok ()) => some item
    | _ => none

/-- The values received from a component. -/
def received (log : List Exchange) : List Payload :=
  log.filterMap fun x =>
    match x with
    | .asked (.ok v) => some v
    | _ => none

/-- The failure of a drain that does not end. -/
def withoutEnd : Error :=
  .invalidData "a codec produced output without end, which is a protocol violation"

def valuesTaken (values : List Payload) : List Exchange :=
  values.map fun v => .asked (.ok v)

/-- The record ends with as many values in a row as a drain may take. -/
def Overrun (log : List Exchange) : Prop :=
  ∃ past values, log = past ++ valuesTaken values ∧ values.length = maxPump

@[simp]
theorem offers_append (first second : List Exchange) :
    offers (first ++ second) = offers first ++ offers second :=
  List.filterMap_append

@[simp]
theorem acceptedItems_append (first second : List Offer) :
    acceptedItems (first ++ second) = acceptedItems first ++ acceptedItems second :=
  List.filterMap_append

@[simp]
theorem received_append (first second : List Exchange) :
    received (first ++ second) = received first ++ received second :=
  List.filterMap_append

/-- The offers made in between, every value received put out, and no end of the stream. -/
def Fed (log log' : List Exchange) (out out' : Items) (calls : List Offer) : Prop :=
  ∃ more, log' = log ++ more ∧ out' = out ++ (received more).map (Prod.mk 0) ∧
    offers more = calls ∧ .asked (.error .eof) ∉ more

theorem Fed.refl (log : List Exchange) (out : Items) : Fed log log out out [] :=
  ⟨[], by simp [received, offers]⟩

theorem Fed.trans {log log' log'' : List Exchange} {out out' out'' : Items}
    {calls calls' : List Offer} (h : Fed log log' out out' calls)
    (h' : Fed log' log'' out' out'' calls') : Fed log log'' out out'' (calls ++ calls') := by
  rcases h with ⟨more, rfl, rfl, rfl, hmore⟩
  rcases h' with ⟨more', rfl, rfl, rfl, hmore'⟩
  refine ⟨more ++ more', ?_, ?_, ?_, ?_⟩
  · rw [List.append_assoc]
  · rw [received_append, List.map_append, List.append_assoc]
  · rw [offers_append]
  · rw [List.mem_append]
    exact fun h => h.elim hmore hmore'

theorem Fed.value (log : List Exchange) (out : Items) (v : Payload) :
    Fed log (log ++ [.asked (.ok v)]) out (out ++ [(0, v)]) [] :=
  ⟨[.asked (.ok v)], rfl, rfl, rfl, by simp⟩

theorem Fed.hungry (log : List Exchange) (out : Items) :
    Fed log (log ++ [.asked (.error .needMoreInput)]) out out [] :=
  ⟨[.asked (.error .needMoreInput)], rfl, by simp [received], rfl, by simp⟩

theorem Fed.offer (log : List Exchange) (out : Items) (x : Offer) :
    Fed log (log ++ [.sent x.1 x.2]) out out [x] :=
  ⟨[.sent x.1 x.2], rfl, by simp [received], rfl, by simp⟩

namespace Fed

variable {log log' : List Exchange} {out : Items} {calls : List Offer}

theorem offers (h : Fed log log' [] out calls) :
    Sched.offers log' = Sched.offers log ++ calls := by
  rcases h with ⟨more, rfl, -, rfl, -⟩
  exact offers_append log more

theorem received (h : Fed log log' [] out calls) :
    Sched.received log' = Sched.received log ++ out.map Prod.snd := by
  rcases h with ⟨more, rfl, rfl, -, -⟩
  simp

theorem unended (h : Fed log log' [] out calls) (hlog : .asked (.error .eof) ∉ log) :
    .asked (.error .eof) ∉ log' := by
  rcases h with ⟨more, rfl, -, -, hmore⟩
  rw [List.mem_append]
  exact fun hmem => hmem.elim hlog hmore

end Fed

/-! ## The offers of one item -/

/-- An item is refused some times and then accepted, or refused as often as offered and held back. -/
inductive Offered : List Payload → Option Payload → List Offer → Prop
  | nothing : Offered [] none []
  | accepted (item : Payload) (k : Nat) :
      Offered [item] none (List.replicate k (.refused (some item)) ++ [.accepted (some item)])
  | heldBack (item : Payload) :
      Offered [item] (some item) (List.replicate maxPump (.refused (some item)))

/-- An offer that follows a refused one is the same offer. -/
def Retries (x y : Offer) : Prop :=
  x.2 = .error .outputPending → y.1 = x.1

namespace Offered

variable {queued : List Payload} {stash : Option Payload} {calls : List Offer}

theorem acceptedItems (h : Offered queued stash calls) :
    Sched.acceptedItems calls ++ stash.toList = queued := by
  cases h with
  | nothing => rfl
  | accepted item k => simp [Sched.acceptedItems, Offer.refused, Offer.accepted]
  | heldBack item => simp [Sched.acceptedItems, Offer.refused]

theorem isChain (h : Offered queued stash calls) : calls.IsChain Retries := by
  have hrefused : ∀ (item : Payload) (k : Nat),
      (List.replicate k (Offer.refused (some item))).IsChain Retries := by
    intro item k
    exact List.isChain_replicate_of_rel k fun _ => rfl
  cases h with
  | nothing => exact List.isChain_nil
  | accepted item k =>
      refine List.isChain_append.mpr ⟨hrefused item k, List.isChain_singleton _, ?_⟩
      intro x hx y hy _
      rw [List.eq_of_mem_replicate (List.mem_of_mem_getLast? hx)]
      rw [List.head?_cons, Option.mem_some_iff] at hy
      rw [← hy]
      rfl
  | heldBack item => exact hrefused item maxPump

theorem head (h : Offered queued stash calls) : ∀ y ∈ calls.head?, y.1 = queued.head? := by
  intro y hy
  cases h with
  | nothing => cases hy
  | accepted item k =>
      have hmem := List.mem_of_mem_head? hy
      rw [List.mem_append, List.mem_singleton] at hmem
      rcases hmem with hmem | rfl
      · rw [List.eq_of_mem_replicate hmem]
        rfl
      · rfl
  | heldBack item =>
      rw [List.eq_of_mem_replicate (List.mem_of_mem_head? hy)]
      rfl

theorem last (h : Offered queued stash calls) :
    ∀ x ∈ calls.getLast?, x.2 = .error .outputPending → x.1 = stash ∧ stash.isSome := by
  intro x hx hrefused
  cases h with
  | nothing => cases hx
  | accepted item k =>
      rw [List.getLast?_concat, Option.mem_some_iff] at hx
      rw [← hx] at hrefused
      cases hrefused
  | heldBack item =>
      rw [List.eq_of_mem_replicate (List.mem_of_mem_getLast? hx)]
      exact ⟨rfl, rfl⟩

theorem not_end (h : Offered queued stash calls) : .accepted none ∉ calls := by
  intro hmem
  cases h with
  | nothing => cases hmem
  | accepted item k =>
      rw [List.mem_append, List.mem_singleton] at hmem
      rcases hmem with hmem | hmem
      · cases List.eq_of_mem_replicate hmem
      · cases hmem
  | heldBack item => cases List.eq_of_mem_replicate hmem

theorem eq_nil (h : Offered queued stash calls) (hcalls : calls = []) :
    queued = [] ∧ stash = none := by
  cases h with
  | nothing => exact ⟨rfl, rfl⟩
  | accepted item k => simp at hcalls
  | heldBack item => simp [maxPump] at hcalls

end Offered

/-- Refused offers stay repeated where the offers of one item, and perhaps of the end, follow. -/
theorem Offered.retried_append {old calls tail : List Offer} {held stash : Option Payload}
    {queued : List Payload} (hold : old.IsChain Retries)
    (hlast : ∀ x ∈ old.getLast?, x.2 = .error .outputPending →
      x.1 = held ∧ (x.1 = none → queued = []))
    (hqueued : ∀ item, held = some item → queued = [item])
    (hoffered : Offered queued stash calls)
    (htail : tail = [] ∨ stash = none ∧ ∃ y : Offer, tail = [y] ∧ y.1 = none) :
    (old ++ (calls ++ tail)).IsChain Retries := by
  have htailChain : tail.IsChain Retries := by
    rcases htail with rfl | ⟨-, y, rfl, -⟩
    · exact List.isChain_nil
    · exact List.isChain_singleton y
  have hnew : (calls ++ tail).IsChain Retries := by
    refine List.isChain_append.mpr ⟨hoffered.isChain, htailChain, ?_⟩
    intro x hx y hy hrefused
    rcases htail with rfl | ⟨hnone, z, rfl, hz⟩
    · cases hy
    · rw [hnone] at hoffered
      exact absurd (hoffered.last x hx hrefused).2 (by simp)
  refine List.isChain_append.mpr ⟨hold, hnew, ?_⟩
  intro x hx y hy hrefused
  rcases hlast x hx hrefused with ⟨hheld, hend⟩
  cases hcalls : calls with
  | nil =>
      rw [hcalls, List.nil_append] at hy
      rcases htail with rfl | ⟨-, z, rfl, hz⟩
      · cases hy
      · rw [List.head?_cons, Option.mem_some_iff] at hy
        rw [← hy, hz]
        cases hx' : x.1 with
        | none => rfl
        | some item =>
            rw [hx'] at hheld
            have hsome := hqueued item hheld.symm
            rw [(hoffered.eq_nil hcalls).1] at hsome
            cases hsome
  | cons z rest =>
      have hy' : y ∈ calls.head? := by
        rw [hcalls] at hy ⊢
        exact hy
      rw [hoffered.head y hy']
      cases hx' : x.1 with
      | none =>
          rw [hend hx']
          rfl
      | some item =>
          rw [hx'] at hheld
          rw [hqueued item hheld.symm]
          rfl

namespace CodecWork

variable {σ : Type} [Side σ] {c : CodecWork (Recorded σ)}

theorem recv_recorded {s : Recorded σ} {r : Except Error Payload}
    (h : (Side.recv s.side).1 = r) :
    Side.recv s = (r, ⟨(Side.recv s.side).2, s.log ++ [.asked r]⟩) := by
  rw [← h]
  rfl

theorem send_recorded {s : Recorded σ} {item : Option Payload} {r : Except Error Unit}
    (h : (Side.send s.side item).1 = r) :
    Side.send s item = (r, ⟨(Side.send s.side item).2, s.log ++ [.sent item r]⟩) := by
  rw [← h]
  rfl

/-! ## One drain -/

/-- A drain of a component that feeds ends where it asks for input, or takes all it may. -/
theorem drain_feeding (P : Protocol σ) (n : Nat) {c : CodecWork (Recorded σ)} (out : Items)
    (h : P.phase .feeding c.side.side) :
    ((drain n c out).2.2 = .ok false ∧ P.phase .feeding (drain n c out).1.side.side ∧
        Fed c.side.log (drain n c out).1.side.log out (drain n c out).2.1 []) ∨
      ((drain n c out).2.2 = .error withoutEnd ∧ ∃ values, values.length = n ∧
        (drain n c out).1.side.log = c.side.log ++ valuesTaken values) := by
  induction n generalizing c out with
  | zero => exact Or.inr ⟨rfl, [], rfl, (List.append_nil _).symm⟩
  | succ n ih =>
      rcases P.recv_feeding _ h with ⟨⟨v, hv⟩ | hmore, hnext⟩
      · rw [drain, recv_recorded hv]
        dsimp only
        rcases ih (c := ⟨⟨(Side.recv c.side.side).2, c.side.log ++ [.asked (.ok v)]⟩, c.stage,
          if v.pts.isSome then v.pts else c.lastPts, c.stashed, c.pendingEof, c.endPts⟩)
          (out ++ [(0, v)]) hnext with ⟨hres, hphase, hfed⟩ | ⟨hres, values, hlen, hlog⟩
        · exact Or.inl ⟨hres, hphase, (Fed.value _ out v).trans hfed⟩
        · refine Or.inr ⟨hres, v :: values, by rw [List.length_cons, hlen], ?_⟩
          rw [hlog, List.append_assoc]
          rfl
      · rw [drain, recv_recorded hmore]
        exact Or.inl ⟨rfl, hnext, Fed.hungry _ out⟩

/-- A drain of a component that refused takes at least one value. -/
theorem drain_refusing (P : Protocol σ) (n : Nat) {c : CodecWork (Recorded σ)} (out : Items)
    (h : P.phase .refusing c.side.side) :
    ((drain (n + 1) c out).2.2 = .ok false ∧
        P.phase .feeding (drain (n + 1) c out).1.side.side ∧
        Fed c.side.log (drain (n + 1) c out).1.side.log out (drain (n + 1) c out).2.1 [] ∧
        (drain (n + 1) c out).2.1.length ≠ out.length) ∨
      ((drain (n + 1) c out).2.2 = .error withoutEnd ∧ ∃ values, values.length = n + 1 ∧
        (drain (n + 1) c out).1.side.log =
          c.side.log ++ valuesTaken values) := by
  rcases P.recv_refusing _ h with ⟨⟨v, hv⟩, hnext⟩
  rw [drain, recv_recorded hv]
  dsimp only
  rcases drain_feeding P n (c := ⟨⟨(Side.recv c.side.side).2, c.side.log ++ [.asked (.ok v)]⟩,
    c.stage, if v.pts.isSome then v.pts else c.lastPts, c.stashed, c.pendingEof, c.endPts⟩)
    (out ++ [(0, v)]) hnext with ⟨hres, hphase, hfed⟩ | ⟨hres, values, hlen, hlog⟩
  · refine Or.inl ⟨hres, hphase, (Fed.value _ out v).trans hfed, ?_⟩
    rcases hfed with ⟨more, -, hout, -⟩
    rw [hout]
    simp
  · refine Or.inr ⟨hres, v :: values, by rw [List.length_cons, hlen], ?_⟩
    rw [hlog, List.append_assoc]
    rfl

/-- A drain of a component that accepted the end takes what is left, or all it may. -/
theorem drain_draining (P : Protocol σ) (n : Nat) {c : CodecWork (Recorded σ)} (out : Items)
    (hstage : c.stage = .draining) (h : P.phase .draining c.side.side) :
    ((drain n c out).2.2 = .ok true ∧ ∃ log,
        (drain n c out).1.side.log = log ++ [.asked (.error .eof)] ∧
        Fed c.side.log log out (drain n c out).2.1 []) ∨
      ((drain n c out).2.2 = .error withoutEnd ∧ ∃ values, values.length = n ∧
        (drain n c out).1.side.log = c.side.log ++ valuesTaken values) := by
  induction n generalizing c out with
  | zero => exact Or.inr ⟨rfl, [], rfl, (List.append_nil _).symm⟩
  | succ n ih =>
      rcases P.recv_draining _ h with ⟨⟨v, hv⟩, hnext⟩ | heof
      · rw [drain, recv_recorded hv]
        dsimp only
        rcases ih (c := ⟨⟨(Side.recv c.side.side).2, c.side.log ++ [.asked (.ok v)]⟩, c.stage,
          if v.pts.isSome then v.pts else c.lastPts, c.stashed, c.pendingEof, c.endPts⟩)
          (out ++ [(0, v)]) hstage hnext with ⟨hres, log, hlog, hfed⟩ | ⟨hres, values, hlen, hlog⟩
        · exact Or.inl ⟨hres, log, hlog, (Fed.value _ out v).trans hfed⟩
        · refine Or.inr ⟨hres, v :: values, by rw [List.length_cons, hlen], ?_⟩
          rw [hlog, List.append_assoc]
          rfl
      · rw [drain, recv_recorded heof]
        dsimp only
        rw [if_pos hstage]
        exact Or.inl ⟨rfl, c.side.log, rfl, Fed.refl _ out⟩

/-! ## One offer -/

/-- An item is refused some times and then accepted, or refused only. -/
theorem offer_spec (P : Protocol σ) (item : Payload) (n : Nat) {c : CodecWork (Recorded σ)}
    (out : Items) (progressed : Bool) (h : P.phase .feeding c.side.side) :
    ((offer item n c out progressed).2.2.2 = .ok true ∧
        P.phase .feeding (offer item n c out progressed).1.side.side ∧
        ∃ k, Fed c.side.log (offer item n c out progressed).1.side.log out
          (offer item n c out progressed).2.1
          (List.replicate k (.refused (some item)) ++ [.accepted (some item)])) ∨
      ((offer item n c out progressed).2.2.2 = .ok false ∧
        P.phase .feeding (offer item n c out progressed).1.side.side ∧
        Fed c.side.log (offer item n c out progressed).1.side.log out
          (offer item n c out progressed).2.1 (List.replicate n (.refused (some item)))) ∨
      ((offer item n c out progressed).2.2.2 = .error withoutEnd ∧
        Overrun (offer item n c out progressed).1.side.log) := by
  induction n generalizing c out progressed with
  | zero => exact Or.inr (Or.inl ⟨rfl, h, Fed.refl _ out⟩)
  | succ n ih =>
      rcases P.send_item _ item h with ⟨hanswer, hnext⟩ | ⟨hanswer, hnext⟩
      · rw [offer, send_recorded hanswer]
        exact Or.inl ⟨rfl, hnext, 0, Fed.offer _ out (.accepted (some item))⟩
      · rw [offer, send_recorded hanswer]
        dsimp only
        have hfirst := Fed.offer c.side.log out (.refused (some item))
        have hdrain := drain_refusing P 4095 (c := ⟨⟨(Side.send c.side.side (some item)).2,
          c.side.log ++ [.sent (some item) (.error .outputPending)]⟩, c.stage, c.lastPts,
          c.stashed, c.pendingEof, c.endPts⟩) out hnext
        rw [show (4095 + 1 : Nat) = maxPump from rfl] at hdrain
        revert hdrain
        rcases drain maxPump _ out with ⟨c₁, out₁, r⟩
        intro hdrain
        rcases hdrain with ⟨rfl, hphase, hfed, hmore⟩ | ⟨rfl, values, hlen, hlog⟩
        · dsimp only at hmore ⊢
          rw [if_neg hmore]
          rcases ih (c := c₁) out₁ true hphase with
            ⟨hok, hphase', k, hrest⟩ | ⟨hok, hphase', hrest⟩ | herr
          · exact Or.inl ⟨hok, hphase', k + 1, (hfirst.trans hfed).trans hrest⟩
          · exact Or.inr (Or.inl ⟨hok, hphase', (hfirst.trans hfed).trans hrest⟩)
          · exact Or.inr (Or.inr herr)
        · exact Or.inr (Or.inr ⟨rfl, _, values, hlog, hlen⟩)

/-- Feeding one item offers it and drains behind it; what was not accepted is held back. -/
theorem feed_spec (P : Protocol σ) {queued : List Payload} (hone : queued.length ≤ 1)
    (out : Items) (progressed : Bool) (hstashed : c.stashed = none)
    (h : P.phase .feeding c.side.side) :
    (∃ c' out' progressed' all calls, feed queued c out progressed =
        (c', out', progressed', .ok all) ∧ P.phase .feeding c'.side.side ∧
        (all = true ↔ c'.stashed = none) ∧ Offered queued c'.stashed calls ∧
        Fed c.side.log c'.side.log out out' calls) ∨
      ∃ c' out' progressed', feed queued c out progressed =
        (c', out', progressed', .error withoutEnd) ∧ Overrun c'.side.log := by
  cases queued with
  | nil =>
      refine Or.inl ⟨c, out, progressed, true, [], rfl, h, by simp [hstashed], ?_, Fed.refl _ out⟩
      rw [hstashed]
      exact Offered.nothing
  | cons item rest =>
      have hrest : rest = [] := by
        rw [List.length_cons] at hone
        exact List.eq_nil_of_length_eq_zero (by omega)
      subst hrest
      have hoffer := offer_spec P item maxPump out progressed h
      have hhold := (offer_hold item maxPump c out progressed).1
      rcases hres : offer item maxPump c out progressed with ⟨c₁, out₁, progressed₁, r⟩
      rw [hres] at hoffer hhold
      rw [feed, hres]
      rcases hoffer with ⟨rfl, hphase, k, hfed⟩ | ⟨rfl, hphase, hfed⟩ | ⟨rfl, hover⟩
      · dsimp only
        have hdrain := drain_feeding P maxPump out₁ hphase
        have hsame := drain_hold maxPump c₁ out₁
        rcases hres' : drain maxPump c₁ out₁ with ⟨c₂, out₂, r⟩
        rw [hres'] at hdrain hsame
        rcases hdrain with ⟨rfl, hphase', hfed'⟩ | ⟨rfl, values, hlen, hlog⟩
        · have hnone : c₂.stashed = none := (hsame.stashed.trans hhold.stashed).trans hstashed
          refine Or.inl ⟨c₂, out₂, true, true, _, rfl, hphase', by simp [hnone], ?_,
            List.append_nil _ ▸ hfed.trans hfed'⟩
          rw [hnone]
          exact Offered.accepted item k
        · exact Or.inr ⟨c₂, out₂, true, rfl, _, values, hlog, hlen⟩
      · exact Or.inl ⟨{ c₁ with stashed := some item }, out₁, progressed₁, false, _, rfl, hphase,
          by simp, Offered.heldBack item, hfed⟩
      · exact Or.inr ⟨c₁, out₁, progressed₁, rfl, hover⟩

/-! ## The end of the input -/

/-- Telling a component that feeds of the end records the acceptance of the end or one refusal. -/
theorem sendEof_spec (P : Protocol σ) (endPts : Timestamp) (out : Items)
    (h : P.phase .feeding c.side.side) :
    (∃ c', c.sendEof endPts out = (c', out, .ok true) ∧ P.phase .draining c'.side.side ∧
        c'.stage = .draining ∧ c'.pendingEof = none ∧ c'.stashed = c.stashed ∧
        Fed c.side.log c'.side.log out out [.accepted none]) ∨
      (∃ c' out', c.sendEof endPts out = (c', out', .ok false) ∧
        P.phase .feeding c'.side.side ∧ c'.stage = c.stage ∧ c'.pendingEof = c.pendingEof ∧
        c'.stashed = c.stashed ∧ Fed c.side.log c'.side.log out out' [.refused none]) ∨
      ∃ c' out', c.sendEof endPts out = (c', out', .error withoutEnd) ∧ Overrun c'.side.log := by
  unfold sendEof
  dsimp only
  rcases P.send_end _ h with ⟨hanswer, hnext⟩ | ⟨hanswer, hnext⟩
  · rw [send_recorded hanswer]
    exact Or.inl ⟨_, rfl, hnext, rfl, rfl, rfl, Fed.offer _ out (.accepted none)⟩
  · rw [send_recorded hanswer]
    dsimp only
    have hfirst := Fed.offer c.side.log out (.refused none)
    have hdrain := drain_refusing P 4095 (c := ⟨⟨(Side.send c.side.side none).2,
      c.side.log ++ [.sent none (.error .outputPending)]⟩, c.stage, c.lastPts, c.stashed,
      c.pendingEof, if c.endPts.isNone then endPts else c.endPts⟩) out hnext
    rw [show (4095 + 1 : Nat) = maxPump from rfl] at hdrain
    have hsame := drain_hold maxPump (⟨⟨(Side.send c.side.side none).2,
      c.side.log ++ [.sent none (.error .outputPending)]⟩, c.stage, c.lastPts, c.stashed,
      c.pendingEof, if c.endPts.isNone then endPts else c.endPts⟩ : CodecWork (Recorded σ)) out
    revert hdrain hsame
    rcases drain maxPump _ out with ⟨c₁, out₁, r⟩
    intro hdrain hsame
    rcases hdrain with ⟨rfl, hphase, hfed, hmore⟩ | ⟨rfl, values, hlen, hlog⟩
    · dsimp only at hmore ⊢
      rw [if_neg hmore]
      exact Or.inr (Or.inl ⟨c₁, out₁, rfl, hphase, hsame.stage, hsame.pendingEof, hsame.stashed,
        hfirst.trans hfed⟩)
    · exact Or.inr (Or.inr ⟨c₁, out₁, rfl, _, values, hlog, hlen⟩)

/-! ## One call -/

/-- It goes on feeding, perhaps after the end was refused; it gave up its tail and closed; or the
component handed over too much. -/
inductive Advanced (P : Protocol σ) (c : CodecWork (Recorded σ)) (queued : List Payload)
    (pending : Option Timestamp) :
    CodecWork (Recorded σ) × Items × Ends × Except Error Bool → Prop
  | feeding {c' : CodecWork (Recorded σ)} {out : Items} {did : Bool} {calls last : List Offer}
      (stage : c'.stage = .feeding) (phase : P.phase .feeding c'.side.side)
      (held : c'.pendingEof = pending) (offered : Offered queued c'.stashed calls)
      (fed : Fed c.side.log c'.side.log [] out (calls ++ last))
      (refused : last = [] ∨ last = [.refused none] ∧ c'.stashed = none ∧ pending.isSome) :
      Advanced P c queued pending (c', out, [], .ok did)
  | finished {c' : CodecWork (Recorded σ)} {out : Items} {ts : Timestamp} {did : Bool}
      {calls : List Offer} {log : List Exchange}
      (stage : c'.stage = .drained) (held : c'.pendingEof = none) (empty : c'.stashed = none)
      (offered : Offered queued none calls) (told : pending.isSome)
      (ended : c'.side.log = log ++ [.asked (.error .eof)])
      (fed : Fed c.side.log log [] out (calls ++ [.accepted none])) :
      Advanced P c queued pending (c', out, [(0, ts)], .ok did)
  | failed {c' : CodecWork (Recorded σ)} {out : Items} (overrun : Overrun c'.side.log) :
      Advanced P c queued pending (c', out, [], .error withoutEnd)

theorem advance_of_feed {inputs out : Items} {ended : Ends} {c' : CodecWork (Recorded σ)}
    {progressed : Bool} {e : Error} (hstage : c.stage = .feeding)
    (h : feed (c.stashed.toList ++ inputs.map Prod.snd) { c.noteEnded ended with stashed := none }
      [] false = (c', out, progressed, .error e)) :
    c.advance inputs ended = (c', out, [], .error e) := by
  rcases c.noteEnded_hold ended with ⟨-, hstage₀, hstashed₀, -⟩
  unfold advance feedStage
  rw [if_pos (hstage₀.trans hstage), hstashed₀]
  dsimp only
  rw [h]

/-- A call of a codec that feeds, with at most one item to offer. -/
theorem advance_spec (P : Protocol σ) {inputs : Items} {ended : Ends}
    (hstage : c.stage = .feeding) (h : P.phase .feeding c.side.side)
    (hone : (c.stashed.toList ++ inputs.map Prod.snd).length ≤ 1) :
    Advanced P c (c.stashed.toList ++ inputs.map Prod.snd) (c.noteEnded ended).pendingEof
      (c.advance inputs ended) := by
  rcases c.noteEnded_hold ended with ⟨hside, hstage₀, hstashed₀, -⟩
  unfold advance feedStage
  rw [if_pos (hstage₀.trans hstage), hstashed₀]
  dsimp only
  have hphase₀ : P.phase .feeding (c.noteEnded ended).side.side := hside ▸ h
  rcases feed_spec P hone [] false (c := { c.noteEnded ended with stashed := none }) rfl
    hphase₀ with
    ⟨c₁, out₁, did₁, all, calls, hfeed, hphase, hall, hoffered, hfed⟩ |
      ⟨c₁, out₁, did₁, hfeed, hover⟩
  · have hhold := feed_ok hfeed
    have hstage₁ : c₁.stage = .feeding := hhold.1.trans (hstage₀.trans hstage)
    have hpending₁ : c₁.pendingEof = (c.noteEnded ended).pendingEof := hhold.2.1
    have hlog : (c.noteEnded ended).side.log = c.side.log := congrArg Recorded.log hside
    change Fed (c.noteEnded ended).side.log _ _ _ _ at hfed
    rw [hlog] at hfed
    rw [hfeed]
    cases all with
    | false =>
        exact Advanced.feeding hstage₁ hphase hpending₁ hoffered (List.append_nil _ ▸ hfed)
          (Or.inl rfl)
    | true =>
        dsimp only
        have hnone : c₁.stashed = none := hall.mp rfl
        cases hpending : c₁.pendingEof with
        | none =>
            dsimp only
            rw [drainStage, if_neg (by rw [hstage₁]; exact nofun)]
            exact Advanced.feeding hstage₁ hphase hpending₁ hoffered (List.append_nil _ ▸ hfed)
              (Or.inl rfl)
        | some endPts =>
            dsimp only
            have htold : (c.noteEnded ended).pendingEof.isSome = true := by
              rw [← hpending₁, hpending]
              rfl
            rcases sendEof_spec P endPts out₁ hphase with
              ⟨c₂, hend, hphase₂, hstage₂, hpending₂, hstashed₂, hfed₂⟩ |
                ⟨c₂, out₂, hend, hphase₂, hstage₂, hpending₂, hstashed₂, hfed₂⟩ |
                  ⟨c₂, out₂, hend, hover⟩
            · rw [hend]
              dsimp only
              rw [drainStage, if_pos hstage₂]
              have hdrain := drain_draining P maxPump out₁ hstage₂ hphase₂
              have hsame := drain_hold maxPump c₂ out₁
              rcases hres : drain maxPump c₂ out₁ with ⟨c₃, out₃, r⟩
              rw [hres] at hdrain hsame
              rcases hdrain with ⟨rfl, log, hlog₃, hfed₃⟩ | ⟨rfl, values, hlen, hlog₃⟩
              · have hempty : c₃.stashed = none := hsame.stashed.trans (hstashed₂.trans hnone)
                have htail := (hfed.trans hfed₂).trans hfed₃
                rw [List.append_nil] at htail
                exact Advanced.finished rfl (hsame.pendingEof.trans hpending₂) hempty
                  (hnone ▸ hoffered) htold hlog₃ htail
              · exact Advanced.failed ⟨_, values, hlog₃, hlen⟩
            · rw [hend]
              have hnone₂ : c₂.stashed = none := hstashed₂.trans hnone
              refine Advanced.feeding (hstage₂.trans hstage₁) hphase₂
                (hpending₂.trans hpending₁) ?_ (hfed.trans hfed₂)
                (Or.inr ⟨rfl, hnone₂, htold⟩)
              rw [hnone₂]
              exact hnone ▸ hoffered
            · rw [hend]
              exact Advanced.failed hover
  · rw [hfeed]
    exact Advanced.failed hover

end CodecWork

/-! ## The node between its wires -/

/-- What leaves on the output wire. -/
inductive Emission
  | item (p : Payload)
  | close (ts : Timestamp)

/-- A codec node between its wires, with everything that arrived, was popped and left. -/
structure Adapter (σ : Type) where
  work : CodecWork (Recorded σ)
  waiting : List Payload
  inputEnd : Option Timestamp
  eofDelivered : Bool
  arrived : List Payload
  popped : List Payload
  output : List Emission
  failed : Option Error

/-- An item arrives, the input wire is closed, or the node has its turn, with or without room. -/
inductive AdapterEvent
  | arrive (item : Payload)
  | close (ts : Timestamp)
  | turn (room : Bool)

namespace Adapter

variable {σ : Type} [Side σ]

/-- A node that nothing has happened to. -/
def new (side : σ) : Adapter σ where
  work := CodecWork.new { side := side, log := [] }
  waiting := []
  inputEnd := none
  eofDelivered := false
  arrived := []
  popped := []
  output := []
  failed := none

/-- The calls of the component so far. -/
def log (s : Adapter σ) : List Exchange :=
  s.work.side.log

/-- The ports of the node. -/
def ports (s : Adapter σ) (room : Bool) : Ports where
  inputs := [{ hasItem := !s.waiting.isEmpty
               atEof := s.inputEnd.isSome && s.waiting.isEmpty
               eofDelivered := s.eofDelivered }]
  outRoom := [room]
  stopReading := false

/-- The items popped in one turn: one at most, and none while an item is held back. -/
def taken (s : Adapter σ) : List Payload :=
  if s.work.stashed.isNone && s.work.stage = .feeding then s.waiting.take 1 else []

/-- The end told to the node in one turn, once nothing waits in front of it. -/
def announced (s : Adapter σ) : Ends :=
  if (s.waiting.drop s.taken.length).isEmpty && !s.eofDelivered then
    s.inputEnd.toList.map (Prod.mk 0)
  else
    []

/-- Run the adapter once.  Nothing it put out is emitted when it fails. -/
def run (s : Adapter σ) : Adapter σ :=
  let before := { s with
    waiting := s.waiting.drop s.taken.length
    popped := s.popped ++ s.taken
    eofDelivered := s.eofDelivered || !s.announced.isEmpty }
  match s.work.advance (s.taken.map (Prod.mk 0)) s.announced with
  | (work, _, _, .error e) => { before with work := work, failed := some e }
  | (work, out, close, .ok _) =>
      { before with
        work := work
        output := s.output ++ out.map (fun x => .item x.2) ++ close.map (fun x => .close x.2) }

/-- One event; a node that failed is not run again. -/
def step (s : Adapter σ) : AdapterEvent → Adapter σ
  | .arrive item =>
      if s.inputEnd.isSome then s
      else { s with waiting := s.waiting ++ [item], arrived := s.arrived ++ [item] }
  | .close ts => if s.inputEnd.isSome then s else { s with inputEnd := some ts }
  | .turn room => if s.failed.isNone && s.work.ready (s.ports room) then s.run else s

/-- A schedule. -/
def after (s : Adapter σ) (events : List AdapterEvent) : Adapter σ :=
  events.foldl step s

/-- The component accepted the popped items in their order, but for a refused one that is held back
and offered next, and the end last; the output wire got the values received, then one close; and a
node that stays idle with room at the end of its input has finished. -/
structure Lossless (s : Adapter σ) : Prop where
  wire : s.popped ++ s.waiting = s.arrived
  accepted : acceptedItems (offers s.log) ++ s.work.stashed.toList = s.popped
  retried : (offers s.log).IsChain Retries
  ended : ∀ past later, offers s.log = past ++ .accepted none :: later →
    later = [] ∧ s.inputEnd.isSome ∧ acceptedItems (offers s.log) = s.arrived
  emitted : (s.output = (received s.log).map .item ∧ .asked (.error .eof) ∉ s.log) ∨
    ∃ past ts, s.log = past ++ [.asked (.error .eof)] ∧ .asked (.error .eof) ∉ past ∧
      .accepted none ∈ offers past ∧ s.output = (received s.log).map .item ++ [.close ts]
  finished : s.inputEnd.isSome → s.work.ready (s.ports true) = false →
    acceptedItems (offers s.log) = s.arrived ∧
      ∃ ts, s.output = (received s.log).map .item ++ [.close ts]

/-! ## What holds between turns -/

variable {P : Protocol σ} {s : Adapter σ}

/-- The end was not accepted, a refused offer is held back, and the values received have left. -/
structure Feeding (P : Protocol σ) (s : Adapter σ) : Prop where
  stage : s.work.stage = .feeding
  phase : P.phase .feeding s.work.side.side
  fresh : .accepted none ∉ offers s.log
  told : s.work.pendingEof.isSome = true ↔ s.eofDelivered = true
  last : ∀ x ∈ (offers s.log).getLast?, x.2 = .error .outputPending →
    x.1 = s.work.stashed ∧ (x.1 = none → s.eofDelivered = true)
  emitted : s.output = (received s.log).map .item
  unended : .asked (.error .eof) ∉ s.log

/-- A node whose component has ended: the end was the last offer and the output is closed. -/
structure Finished (s : Adapter σ) : Prop where
  stage : s.work.stage = .drained
  stashed : s.work.stashed = none
  pending : s.work.pendingEof = none
  told : s.eofDelivered = true
  last : ∃ past, offers s.log = past ++ [.accepted none] ∧ .accepted none ∉ past
  closed : ∃ past ts, s.log = past ++ [.asked (.error .eof)] ∧ .asked (.error .eof) ∉ past ∧
    s.output = (received s.log).map .item ++ [.close ts]

/-- What holds of a node that did not fail. -/
structure Holds (P : Protocol σ) (s : Adapter σ) : Prop where
  running : s.failed = none
  wire : s.popped ++ s.waiting = s.arrived
  accepted : acceptedItems (offers s.log) ++ s.work.stashed.toList = s.popped
  retried : (offers s.log).IsChain Retries
  told : s.eofDelivered = true → s.inputEnd.isSome ∧ s.waiting = []
  stage : s.Feeding P ∨ s.Finished

theorem holds_new {side : σ} (h : P.phase .feeding side) : (new side).Holds P where
  running := rfl
  wire := rfl
  accepted := rfl
  retried := List.isChain_nil
  told h := by cases h
  stage := Or.inl
    { stage := rfl
      phase := h
      fresh := List.not_mem_nil
      told := by simp [new, CodecWork.new]
      last := by
        intro x hx
        cases hx
      emitted := rfl
      unended := List.not_mem_nil }

omit [Side σ] in
theorem ready_of_feeding (hstage : s.work.stage = .feeding) (hend : s.inputEnd.isSome) :
    s.work.ready (s.ports true) = true := by
  unfold CodecWork.ready
  rw [hstage]
  cases hwaiting : s.waiting with
  | nil => simp [ports, Ports.allOutRoom, Ports.anyInput, Ports.allEof, hwaiting, hend]
  | cons item rest => simp [ports, Ports.allOutRoom, Ports.anyInput, Ports.allEof, hwaiting]

/-- A node of which this holds has lost nothing and repeated nothing. -/
theorem Holds.lossless (h : s.Holds P) : s.Lossless where
  wire := h.wire
  accepted := h.accepted
  retried := h.retried
  ended := by
    intro past later hoffers
    rcases h.stage with hfeeding | hfinished
    · exact absurd (hoffers ▸ List.mem_append_right past List.mem_cons_self) hfeeding.fresh
    · rcases hfinished.last with ⟨past', hlast, hfresh⟩
      have hlater : later = [] := by
        rcases List.eq_nil_or_concat later with hnil | ⟨later', x, hconcat⟩
        · exact hnil
        · -- An earlier acceptance would not be the last offer.
          have heq : past ++ .accepted none :: later' = past' := by
            rw [hoffers, hconcat, List.concat_eq_append, ← List.cons_append,
              ← List.append_assoc] at hlast
            exact (List.append_inj' hlast rfl).1
          exact absurd (heq ▸ List.mem_append_right past List.mem_cons_self) hfresh
      have htold := h.told hfinished.told
      have haccepted := h.accepted
      have hwire := h.wire
      rw [hfinished.stashed, Option.toList_none, List.append_nil] at haccepted
      rw [htold.2, List.append_nil] at hwire
      exact ⟨hlater, htold.1, haccepted.trans hwire⟩
  emitted := by
    rcases h.stage with hfeeding | hfinished
    · exact Or.inl ⟨hfeeding.emitted, hfeeding.unended⟩
    · rcases hfinished.closed with ⟨past, ts, hlog, hpast, hout⟩
      rcases hfinished.last with ⟨past', hlast, -⟩
      refine Or.inr ⟨past, ts, hlog, hpast, ?_, hout⟩
      have hoffers : offers s.log = offers past := by
        rw [hlog, offers_append]
        exact List.append_nil _
      rw [← hoffers, hlast]
      exact List.mem_append_right past' List.mem_cons_self
  finished := by
    intro hend hidle
    rcases h.stage with hfeeding | hfinished
    · rw [ready_of_feeding hfeeding.stage hend] at hidle
      cases hidle
    · rcases hfinished.closed with ⟨past, ts, -, -, hout⟩
      have haccepted := h.accepted
      have hwire := h.wire
      rw [hfinished.stashed, Option.toList_none, List.append_nil] at haccepted
      rw [(h.told hfinished.told).2, List.append_nil] at hwire
      exact ⟨haccepted.trans hwire, ts, hout⟩

omit [Side σ] in
theorem Finished.not_ready (h : s.Finished) (room : Bool) :
    s.work.ready (s.ports room) = false := by
  unfold CodecWork.ready
  rw [h.stashed, h.pending, h.stage]
  simp

omit [Side σ] in
theorem taken_append (s : Adapter σ) : s.taken ++ s.waiting.drop s.taken.length = s.waiting := by
  unfold taken
  split
  · cases s.waiting with
    | nil => rfl
    | cons item rest => rfl
  · rfl

omit [Side σ] in
theorem queued_cases (s : Adapter σ) :
    (s.work.stashed.toList ++ s.taken).length ≤ 1 ∧
      (∀ item, s.work.stashed = some item → s.work.stashed.toList ++ s.taken = [item]) := by
  unfold taken
  cases s.work.stashed with
  | none =>
      refine ⟨?_, by simp⟩
      split
      · simp
      · simp
  | some item => simp

theorem told_after (h : s.Holds P)
    (htold : (s.eofDelivered || !s.announced.isEmpty) = true) :
    s.inputEnd.isSome ∧ s.waiting.drop s.taken.length = [] := by
  rw [Bool.or_eq_true] at htold
  rcases htold with hbefore | hnow
  · rcases h.told hbefore with ⟨hend, hwaiting⟩
    exact ⟨hend, by rw [hwaiting, List.drop_nil]⟩
  · unfold announced at hnow
    split at hnow
    · rename_i hempty
      rw [Bool.and_eq_true, List.isEmpty_iff] at hempty
      refine ⟨?_, hempty.1⟩
      cases hend : s.inputEnd with
      | none => simp [hend] at hnow
      | some ts => rfl
    · simp at hnow

theorem Feeding.pending (h : s.Feeding P) :
    (s.work.noteEnded s.announced).pendingEof.isSome = true ↔
      (s.eofDelivered || !s.announced.isEmpty) = true := by
  rw [(s.work.noteEnded_hold s.announced).2.2.2, h.told]
  simp

/-- What a turn of a node that feeds calls its component with. -/
theorem Feeding.advanced (h : s.Feeding P) :
    CodecWork.Advanced P s.work (s.work.stashed.toList ++ s.taken)
      (s.work.noteEnded s.announced).pendingEof
      (s.work.advance (s.taken.map (Prod.mk 0)) s.announced) := by
  have hitems : (s.taken.map (Prod.mk 0)).map Prod.snd = s.taken := by simp
  have hone := (queued_cases s).1
  rw [← hitems] at hone
  have hspec : CodecWork.Advanced P s.work _ (s.work.noteEnded s.announced).pendingEof _ :=
    CodecWork.advance_spec P h.stage h.phase hone
  rwa [hitems] at hspec

/-- An offer refused before a turn is the item held back, or the end with nothing behind it. -/
theorem Feeding.refused_before (hfeeding : s.Feeding P) (h : s.Holds P) :
    ∀ x ∈ (offers s.log).getLast?, x.2 = .error .outputPending →
      x.1 = s.work.stashed ∧ (x.1 = none → s.work.stashed.toList ++ s.taken = []) := by
  intro x hx hrefused
  rcases hfeeding.last x hx hrefused with ⟨hheld, hend⟩
  refine ⟨hheld, fun hnone => ?_⟩
  have hwaiting := (h.told (hend hnone)).2
  rw [← hheld, hnone, taken, hwaiting]
  simp

/-- So is an offer refused in a turn. -/
theorem Feeding.refused_behind (h : s.Feeding P) {stash : Option Payload} {calls last : List Offer}
    (hoffered : Offered (s.work.stashed.toList ++ s.taken) stash calls)
    (hend : last = [] ∨ last = [.refused none] ∧ stash = none ∧
      (s.work.noteEnded s.announced).pendingEof.isSome) :
    ∀ x ∈ (offers s.log ++ (calls ++ last)).getLast?, x.2 = .error .outputPending →
      x.1 = stash ∧ (x.1 = none → (s.eofDelivered || !s.announced.isEmpty) = true) := by
  intro x hx hrefused
  rcases hend with rfl | ⟨rfl, hempty, htold⟩
  · rw [List.append_nil] at hx
    cases hcalls : calls with
    | nil =>
        rw [hcalls, List.append_nil] at hx
        rcases hoffered.eq_nil hcalls with ⟨hqueued, hempty⟩
        rcases h.last x hx hrefused with ⟨hheld, hend⟩
        have hbefore : s.work.stashed = none := by
          rw [List.append_eq_nil_iff, Option.toList_eq_nil_iff] at hqueued
          exact hqueued.1
        refine ⟨by rw [hheld, hbefore, hempty], fun hx' => ?_⟩
        rw [hend hx']
        rfl
    | cons y rest =>
        have hlast : x ∈ calls.getLast? := by
          rw [List.getLast?_append_of_ne_nil _ (by rw [hcalls]; exact List.cons_ne_nil _ _)] at hx
          exact hx
        rcases hoffered.last x hlast hrefused with ⟨hheld, hsome⟩
        refine ⟨hheld, fun hx' => ?_⟩
        rw [← hheld, hx'] at hsome
        cases hsome
  · rw [← List.append_assoc, List.getLast?_concat, Option.mem_some_iff] at hx
    rw [← hx, hempty]
    exact ⟨rfl, fun _ => h.pending.mp htold⟩

/-- A turn of a node that feeds keeps what holds of it, unless its component hands over too
much. -/
theorem run_holds (h : s.Holds P) (hfeeding : s.Feeding P) :
    s.run.Holds P ∨ (s.run.failed = some withoutEnd ∧ Overrun s.run.log) := by
  have hadvance := hfeeding.advanced
  have hlast := hfeeding.refused_before h
  have hwire : s.popped ++ s.taken ++ s.waiting.drop s.taken.length = s.arrived := by
    rw [List.append_assoc, taken_append, h.wire]
  have hpending := hfeeding.pending
  rcases hres : s.work.advance (s.taken.map (Prod.mk 0)) s.announced with ⟨work, out, close, r⟩
  rw [hres] at hadvance
  unfold run
  rw [hres]
  cases hadvance with
  | feeding hstage hphase hheld hoffered hfed hend =>
      rename_i did calls last
      have htail : last = [] ∨ work.stashed = none ∧ ∃ y : Offer, last = [y] ∧ y.1 = none :=
        hend.imp_right fun hrefused => ⟨hrefused.2.1, _, hrefused.1, rfl⟩
      have hnone : acceptedItems last = [] ∧ .accepted none ∉ last := by
        rcases hend with rfl | ⟨rfl, -, -⟩
        · exact ⟨rfl, List.not_mem_nil⟩
        · refine ⟨rfl, ?_⟩
          rw [List.mem_singleton]
          exact nofun
      refine Or.inl
        { running := h.running
          wire := hwire
          accepted := ?_
          retried := ?_
          told := told_after h
          stage := Or.inl
            { stage := hstage
              phase := hphase
              fresh := ?_
              told := by rw [hheld, hpending]
              last := ?_
              emitted := ?_
              unended := hfed.unended hfeeding.unended } }
      · change acceptedItems (offers work.side.log) ++ work.stashed.toList = s.popped ++ s.taken
        rw [hfed.offers, acceptedItems_append, acceptedItems_append, hnone.1, List.append_nil,
          List.append_assoc, hoffered.acceptedItems, ← List.append_assoc]
        exact congrArg (· ++ s.taken) h.accepted
      · change (offers work.side.log).IsChain Retries
        rw [hfed.offers]
        exact hoffered.retried_append h.retried hlast (queued_cases s).2 htail
      · change .accepted none ∉ offers work.side.log
        rw [hfed.offers, List.mem_append, List.mem_append]
        rintro (hmem | hmem | hmem)
        · exact hfeeding.fresh hmem
        · exact hoffered.not_end hmem
        · exact hnone.2 hmem
      · change ∀ x ∈ (offers work.side.log).getLast?, x.2 = .error .outputPending →
          x.1 = work.stashed ∧ (x.1 = none → (s.eofDelivered || !s.announced.isEmpty) = true)
        rw [hfed.offers]
        exact hfeeding.refused_behind hoffered hend
      · change s.output ++ out.map (fun x => .item x.2) ++ [] = (received work.side.log).map .item
        rw [hfed.received, List.map_append, List.map_map, List.append_nil, hfeeding.emitted]
        rfl
  | finished hstage hheld hempty hoffered htold hended hfed =>
      rename_i ts did calls log
      have hoffers : offers work.side.log = offers s.log ++ calls ++ [.accepted none] := by
        rw [hended, offers_append, hfed.offers, ← List.append_assoc]
        exact List.append_nil _
      have hreceived : received work.side.log = received s.log ++ out.map Prod.snd := by
        rw [hended, received_append, hfed.received]
        exact List.append_nil _
      refine Or.inl
        { running := h.running
          wire := hwire
          accepted := ?_
          retried := ?_
          told := told_after h
          stage := Or.inr
            { stage := hstage
              stashed := hempty
              pending := hheld
              told := hpending.mp htold
              last := ⟨offers s.log ++ calls, hoffers, ?_⟩
              closed := ⟨log, ts, hended, hfed.unended hfeeding.unended, ?_⟩ } }
      · change acceptedItems (offers work.side.log) ++ work.stashed.toList = s.popped ++ s.taken
        have hqueued := hoffered.acceptedItems
        rw [Option.toList_none, List.append_nil] at hqueued
        rw [hoffers, acceptedItems_append, acceptedItems_append, hqueued, hempty,
          ← List.append_assoc, h.accepted]
        simp [acceptedItems, Offer.accepted]
      · change (offers work.side.log).IsChain Retries
        rw [hoffers, List.append_assoc]
        exact hoffered.retried_append h.retried hlast (queued_cases s).2
          (Or.inr ⟨rfl, _, rfl, rfl⟩)
      · rw [List.mem_append]
        exact fun hmem => hmem.elim hfeeding.fresh hoffered.not_end
      · change s.output ++ out.map (fun x => .item x.2) ++ [.close ts] =
          (received work.side.log).map .item ++ [.close ts]
        rw [hreceived, List.map_append, List.map_map, hfeeding.emitted]
        rfl
  | failed hover => exact Or.inr ⟨rfl, hover⟩

theorem Holds.input (h : s.Holds P) (huntold : s.eofDelivered = false)
    {waiting arrived : List Payload} (hwire : s.popped ++ waiting = arrived)
    (inputEnd : Option Timestamp) :
    Holds P { s with waiting := waiting, arrived := arrived, inputEnd := inputEnd } where
  running := h.running
  wire := hwire
  accepted := h.accepted
  retried := h.retried
  told htold := by
    rw [huntold] at htold
    cases htold
  stage := h.stage.imp
    (fun hf => ⟨hf.stage, hf.phase, hf.fresh, hf.told, hf.last, hf.emitted, hf.unended⟩)
    (fun hf => ⟨hf.stage, hf.stashed, hf.pending, hf.told, hf.last, hf.closed⟩)

/-- What holds of a node, or how it failed, is kept by every event. -/
theorem step_holds (e : AdapterEvent)
    (h : s.Holds P ∨ (s.failed = some withoutEnd ∧ Overrun s.log)) :
    (s.step e).Holds P ∨ ((s.step e).failed = some withoutEnd ∧ Overrun (s.step e).log) := by
  rcases h with h | ⟨hfailed, hover⟩
  · have huntold : ¬s.inputEnd.isSome = true → s.eofDelivered = false := by
      intro hopen
      rw [← Bool.not_eq_true]
      exact fun htold => hopen (h.told htold).1
    cases e with
    | arrive item =>
        simp only [step]
        split
        · exact Or.inl h
        · rename_i hopen
          exact Or.inl (h.input (huntold hopen) (by rw [← h.wire, List.append_assoc]) _)
    | close ts =>
        simp only [step]
        split
        · exact Or.inl h
        · rename_i hopen
          exact Or.inl (h.input (huntold hopen) h.wire _)
    | turn room =>
        simp only [step]
        split
        · rename_i hready
          rcases h.stage with hfeeding | hfinished
          · exact run_holds h hfeeding
          · rw [hfinished.not_ready room, Bool.and_false] at hready
            cases hready
        · exact Or.inl h
  · refine Or.inr ?_
    cases e with
    | arrive item =>
        simp only [step]
        split
        · exact ⟨hfailed, hover⟩
        · exact ⟨hfailed, hover⟩
    | close ts =>
        simp only [step]
        split
        · exact ⟨hfailed, hover⟩
        · exact ⟨hfailed, hover⟩
    | turn room =>
        have hidle : s.step (.turn room) = s := if_neg (by simp [hfailed])
        rw [hidle]
        exact ⟨hfailed, hover⟩

theorem after_holds (events : List AdapterEvent)
    (h : s.Holds P ∨ (s.failed = some withoutEnd ∧ Overrun s.log)) :
    (s.after events).Holds P ∨
      ((s.after events).failed = some withoutEnd ∧ Overrun (s.after events).log) := by
  induction events generalizing s with
  | nil => exact h
  | cons e events ih => exact ih (step_holds e h)

/-- In every schedule the adapter loses nothing and repeats nothing, unless a drain takes as many
values in a row as it may: then, and only then, the node fails. -/
theorem adapter_lossless (P : Protocol σ) {side : σ} (h : P.phase .feeding side)
    (events : List AdapterEvent) :
    (((new side).after events).failed = none ∧ ((new side).after events).Lossless) ∨
      (((new side).after events).failed = some withoutEnd ∧
        Overrun ((new side).after events).log) := by
  rcases after_holds events (Or.inl (holds_new h)) with hholds | hfailed
  · exact Or.inl ⟨hholds.running, hholds.lossless⟩
  · exact Or.inr hfailed

end Adapter

/-! ## A component with bursts -/

/-- A component that hands over a fixed number of values for each item. -/
structure Burst (size : Nat) where
  left : Nat
  told : Bool

namespace Burst

variable {size : Nat}

instance : Side (Burst size) where
  send s item :=
    match item with
    | some _ => (.ok (), { s with left := s.left + size })
    | none => (.ok (), { s with told := true })
  recv s :=
    match s.left with
    | left + 1 => (.ok (.packet Packet.empty), { s with left := left })
    | 0 => if s.told then (.error .eof, s) else (.error .needMoreInput, s)

/-- However long its bursts are, the component obeys the protocol. -/
def protocol (size : Nat) : Protocol (Burst size) where
  phase p s :=
    match p with
    | .feeding => s.told = false
    | .refusing => False
    | .draining => s.told = true
  send_item s item h := Or.inl ⟨rfl, h⟩
  send_end s h := Or.inl ⟨rfl, rfl⟩
  recv_feeding s h := by
    rcases s with ⟨left, told⟩
    have htold : told = false := h
    subst htold
    cases left with
    | zero => exact ⟨Or.inr rfl, rfl⟩
    | succ left => exact ⟨Or.inl ⟨_, rfl⟩, rfl⟩
  recv_refusing s h := h.elim
  recv_draining s h := by
    rcases s with ⟨left, told⟩
    have htold : told = true := h
    subst htold
    cases left with
    | zero => exact Or.inr rfl
    | succ left => exact Or.inl ⟨⟨_, rfl⟩, rfl⟩

theorem drain_fails (n : Nat) {c : CodecWork (Recorded (Burst size))} (out : Items)
    (h : n ≤ c.side.side.left) : (CodecWork.drain n c out).2.2 = .error withoutEnd := by
  induction n generalizing c out with
  | zero => rfl
  | succ n ih =>
      rcases c with ⟨⟨⟨left, told⟩, log⟩, stage, lastPts, stashed, pendingEof, endPts⟩
      cases left with
      | zero => exact absurd h (Nat.not_succ_le_zero n)
      | succ left => exact ih _ (Nat.le_of_succ_le_succ h)

end Burst

/-! ## A component that refuses -/

/-- A component that holds two items back and refuses a third until one of them is taken. -/
structure Holding where
  held : List Payload
  refused : Bool
  told : Bool

namespace Holding

instance : Side Holding where
  send s item :=
    match item with
    | some item =>
        if s.held.length < 2 then (.ok (), { s with held := s.held ++ [item] })
        else (.error .outputPending, { s with refused := true })
    | none => (.ok (), { s with told := true })
  recv s :=
    match s.refused || s.told, s.held with
    | true, item :: held => (.ok item, { s with held := held, refused := false })
    | true, [] => (.error .eof, s)
    | false, _ => (.error .needMoreInput, s)

def protocol : Protocol Holding where
  phase p s :=
    match p with
    | .feeding => s.refused = false ∧ s.told = false
    | .refusing => s.refused = true ∧ s.told = false ∧ s.held ≠ []
    | .draining => s.refused = false ∧ s.told = true
  send_item s item h := by
    rcases s with ⟨held, refused, told⟩
    rcases h with ⟨rfl, rfl⟩
    by_cases hroom : held.length < 2
    · exact Or.inl (by simp [Side.send, hroom])
    · have hsome : held ≠ [] := by
        rintro rfl
        exact hroom (by decide)
      exact Or.inr (by simp [Side.send, hroom, hsome])
  send_end s h := Or.inl ⟨rfl, h.1, rfl⟩
  recv_feeding s h := by
    rcases s with ⟨held, refused, told⟩
    rcases h with ⟨rfl, rfl⟩
    exact ⟨Or.inr rfl, rfl, rfl⟩
  recv_refusing s h := by
    rcases s with ⟨held, refused, told⟩
    rcases h with ⟨rfl, rfl, hsome⟩
    cases held with
    | nil => exact absurd rfl hsome
    | cons item held => exact ⟨⟨item, rfl⟩, rfl, rfl⟩
  recv_draining s h := by
    rcases s with ⟨held, refused, told⟩
    rcases h with ⟨rfl, rfl⟩
    cases held with
    | nil => exact Or.inr rfl
    | cons item held => exact Or.inl ⟨⟨item, rfl⟩, rfl, rfl⟩

end Holding

namespace Adapter

/-- Four items, the last two of which are refused at first, a turn without room, and the end. -/
def holdingEvents : List AdapterEvent :=
  let item (n : Nat) : Payload := .packet { Packet.empty with streamIndex := n }
  [.arrive (item 0), .turn true, .arrive (item 1), .arrive (item 2), .turn true, .turn false,
    .arrive (item 3), .turn true, .close none, .turn true, .turn true]

theorem adapter_lossless_holding :
    let last := (new (⟨[], false, false⟩ : Holding)).after holdingEvents
    (last.failed = none ∧ last.Lossless) ∧ last.output.length = 5 ∧
      last.log.countP (fun | .sent _ (.error _) => true | _ => false) = 2 := by
  refine ⟨(adapter_lossless Holding.protocol ⟨rfl, rfl⟩ _).resolve_right fun hfailed => ?_, ?_, ?_⟩
  · exact absurd hfailed.1 (by decide +kernel)
  · decide +kernel
  · decide +kernel

/-- A call fails on a burst that is as long as a drain may be. -/
theorem advance_fails (item : Payload) :
    ((CodecWork.new (⟨⟨0, false⟩, []⟩ : Recorded (Burst maxPump))).advance
      [(0, item)] []).2.2.2 = .error withoutEnd := by
  have hdrain : (CodecWork.drain maxPump (⟨⟨⟨0 + maxPump, false⟩, [.sent (some item) (.ok ())]⟩,
      .feeding, none, none, none, none⟩ : CodecWork (Recorded (Burst maxPump))) []).2.2 =
        .error withoutEnd :=
    Burst.drain_fails maxPump [] (Nat.le_add_left maxPump 0)
  rcases hres : CodecWork.drain maxPump (⟨⟨⟨0 + maxPump, false⟩,
    [.sent (some item) (.ok ())]⟩, .feeding, none, none, none, none⟩ :
      CodecWork (Recorded (Burst maxPump))) [] with ⟨c, out, r⟩
  rw [hres] at hdrain
  have hr : r = .error withoutEnd := hdrain
  subst hr
  have hoffer : CodecWork.offer item maxPump
      (CodecWork.new (⟨⟨0, false⟩, []⟩ : Recorded (Burst maxPump))) [] false =
        (⟨⟨⟨0 + maxPump, false⟩, [.sent (some item) (.ok ())]⟩, .feeding, none, none, none, none⟩,
          [], false, .ok true) :=
    rfl
  have hfeed : CodecWork.feed [item]
      (CodecWork.new (⟨⟨0, false⟩, []⟩ : Recorded (Burst maxPump))) [] false =
        (c, out, true, .error withoutEnd) := by
    rw [CodecWork.feed, hoffer]
    dsimp only
    rw [hres]
  have hqueued : (CodecWork.new (⟨⟨0, false⟩, []⟩ : Recorded (Burst maxPump))).stashed.toList ++
      [((0 : Nat), item)].map Prod.snd = [item] := rfl
  have hnoted : { (CodecWork.new (⟨⟨0, false⟩, []⟩ : Recorded (Burst maxPump))).noteEnded [] with
      stashed := none } = CodecWork.new (⟨⟨0, false⟩, []⟩ : Recorded (Burst maxPump)) := rfl
  have hcall : (CodecWork.new (⟨⟨0, false⟩, []⟩ : Recorded (Burst maxPump))).advance
      [(0, item)] [] = (c, out, [], .error withoutEnd) :=
    CodecWork.advance_of_feed rfl (by rw [hqueued, hnoted]; exact hfeed)
  rw [hcall]

/-- A node where one item waits for a component with bursts as long as a drain may be. -/
def burstNode (item : Payload) : Adapter (Burst maxPump) where
  work := CodecWork.new { side := { left := 0, told := false }, log := [] }
  waiting := [item]
  inputEnd := none
  eofDelivered := false
  arrived := [item]
  popped := []
  output := []
  failed := none

theorem run_burstNode (item : Payload) :
    (burstNode item).run.failed = some withoutEnd ∧ (burstNode item).run.output = [] := by
  have htaken : (burstNode item).taken = [item] := rfl
  have hannounced : (burstNode item).announced = [] := rfl
  have hadvance := advance_fails item
  rcases hres : (CodecWork.new (⟨⟨0, false⟩, []⟩ : Recorded (Burst maxPump))).advance
    [(0, item)] [] with ⟨work, out, close, r⟩
  rw [hres] at hadvance
  have hr : r = .error withoutEnd := hadvance
  subst hr
  have hcall : (burstNode item).work.advance ([item].map (Prod.mk 0)) [] =
      (work, out, close, .error withoutEnd) := hres
  rw [run, htaken, hannounced, hcall]
  exact ⟨rfl, rfl⟩

/-- A burst as long as a drain may be is received and not put out. -/
theorem adapter_drops_burst :
    ¬((new (⟨0, false⟩ : Burst maxPump)).after
      [.arrive (.packet Packet.empty), .turn true]).Lossless := by
  have harrive : (new (⟨0, false⟩ : Burst maxPump)).step (.arrive (.packet Packet.empty)) =
      burstNode (.packet Packet.empty) := rfl
  have hturn : (new (⟨0, false⟩ : Burst maxPump)).after
      [.arrive (.packet Packet.empty), .turn true] = (burstNode (.packet Packet.empty)).run := by
    rw [after, List.foldl_cons, List.foldl_cons, List.foldl_nil, harrive, step, if_pos]
    rfl
  have hover := after_holds [.arrive (.packet Packet.empty), .turn true] (Or.inl (holds_new
    (show (Burst.protocol maxPump).phase .feeding ⟨0, false⟩ from rfl)))
  rcases run_burstNode (.packet Packet.empty) with ⟨hfailed, hout⟩
  rw [← hturn] at hfailed hout
  intro h
  rcases hover with hholds | ⟨-, past, values, hlog, hlen⟩
  · rw [hholds.running] at hfailed
    cases hfailed
  · -- The record holds the values, and nothing was put out.
    rcases h.emitted with ⟨hemitted, -⟩ | ⟨past', ts, -, -, -, hclosed⟩
    · rw [hout, hlog, received_append] at hemitted
      have hvalues : received (valuesTaken values) = values := by
        simp [received, valuesTaken, List.filterMap_map]
      rw [hvalues] at hemitted
      have hlength := congrArg List.length hemitted
      simp only [List.length_nil, List.length_map, List.length_append, hlen, maxPump] at hlength
      omega
    · rw [hout] at hclosed
      exact absurd hclosed (by simp)

end Adapter
end Sched
end Vaco
