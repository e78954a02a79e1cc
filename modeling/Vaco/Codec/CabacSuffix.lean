import Vaco.Codec.CabacRoundTrip

/-!
# The bypass suffix of the arithmetic coding engine

A suffix of an order is a run of ones, a zero and as many bits as the order has grown to; each
one of the run takes a power of two off the value and raises the order.  The encoder gives up
where the order leaves the word, and the decoder marks itself malformed at the same bin.

Main results:

- `encodeBypassEgk_eq`, `decodeBypassEgk_eq`: the bins of a suffix, written and read.
- `bypass_egk_round_trips`: which suffixes come back.
-/

namespace Vaco
namespace Codec

open Library BitStream Checked IntervalCoder
open Vaco.Bitstream

/-- The power of two of an order, or the greatest word where it does not fit. -/
def powerOrMax (k : Nat) : Nat :=
  if k < 32 then 2 ^ k else 4294967295

namespace CabacEncoder

/-- Encode the low bits of a value without a context, the highest one first. -/
def bypassBitsLoop : Nat → CabacEncoder → Nat → Option CabacEncoder
  | 0, e, _ => some e
  | i + 1, e, value => do
      let e ← e.encodeBypass ((value >>> i) &&& 1)
      bypassBitsLoop i e value

def encodeBypassBits (e : CabacEncoder) (n value : Nat) : Option CabacEncoder :=
  bypassBitsLoop (min n 32) e value

/-- Encode the ones in front of a suffix, and the suffix behind their zero if the order fits the
word. -/
def egkLoop : Nat → CabacEncoder → Nat → Nat → Nat → Option CabacEncoder
  | 0, _, _, _, _ => none
  | fuel + 1, e, k, remaining, run =>
      if powerOrMax k ≤ remaining ∧ run < 32 then do
        let e ← e.encodeBypass 1
        let remaining ← sub remaining (powerOrMax k)
        let k ← add32 k 1
        let run ← add32 run 1
        if 31 < k then some e else egkLoop fuel e k remaining run
      else do
        let e ← e.encodeBypass 0
        e.encodeBypassBits k remaining

def encodeBypassEgk (e : CabacEncoder) (k value : Nat) : Option CabacEncoder :=
  egkLoop 33 e (min k 31) value 0

end CabacEncoder

/-! ## The bins of a suffix -/

/-- The low bits of a value, the highest one first. -/
def bitBins : Nat → Nat → List Bool
  | 0, _ => []
  | i + 1, value => value.testBit i :: bitBins i value

/-- The bins of the suffix of a value, of an order that can grow a number of times before it
leaves the word. -/
def egkBins : Nat → Nat → List Bool
  | 0, _ => []
  | left + 1, value =>
      if 2 ^ (31 - left) ≤ value then true :: egkBins left (value - 2 ^ (31 - left))
      else false :: bitBins (31 - left) value

/-- Encode bins without a context. -/
def encodeBins (e : CabacEncoder) (bins : List Bool) : Option CabacEncoder :=
  bins.foldlM (fun e bin => e.encodeBypass bin.toNat) e

/-- The bypass operations of some bins. -/
def bypassOps (n : Nat) (bins : List Bool) : List (CabacOp n) :=
  bins.map CabacOp.bypass

theorem foldlM_bypassOps {n : Nat} (s : CabacSource n) (bins : List Bool) :
    (bypassOps n bins).foldlM encodeOp s =
      (encodeBins s.encoder bins).map fun e => ⟨e, s.contexts⟩ := by
  induction bins generalizing s with
  | nil => rfl
  | cons bin bins ih =>
      rw [bypassOps, List.map_cons, List.foldlM_cons, encodeOp, encodeBins, List.foldlM_cons]
      cases s.encoder.encodeBypass bin.toNat with
      | none => rfl
      | some e => exact ih ⟨e, s.contexts⟩

theorem bypassBitsLoop_eq (n : Nat) (e : CabacEncoder) (value : Nat) :
    CabacEncoder.bypassBitsLoop n e value = encodeBins e (bitBins n value) := by
  induction n generalizing e with
  | zero => rfl
  | succ n ih =>
      have hbit : (value >>> n) &&& 1 = (value.testBit n).toNat := by
        rw [Nat.testBit_eq_decide_div_mod_eq, Nat.and_one_is_mod, Nat.shiftRight_eq_div_pow]
        have hbound : value / 2 ^ n % 2 < 2 := Nat.mod_lt _ (by decide)
        rcases (by omega : value / 2 ^ n % 2 = 0 ∨ value / 2 ^ n % 2 = 1) with h | h <;> simp [h]
      rw [CabacEncoder.bypassBitsLoop, hbit, bitBins, encodeBins, List.foldlM_cons]
      congr 1
      funext e'
      exact ih e'

/-- The run of an order and the suffix behind it are the bins of the suffix. -/
theorem egkLoop_eq {left fuel run : Nat} (e : CabacEncoder) {k value : Nat} (hk : k + left = 32)
    (hleft : 0 < left) (hrun : run ≤ k) (hvalue : value < 4294967296) (hfuel : left < fuel) :
    CabacEncoder.egkLoop fuel e k value run = encodeBins e (egkBins left value) := by
  induction left generalizing fuel run e k value with
  | zero => omega
  | succ left ih =>
      cases fuel with
      | zero => omega
      | succ fuel =>
          have hpower : powerOrMax k = 2 ^ k := if_pos (by omega)
          have horder : 31 - left = k := by omega
          rw [CabacEncoder.egkLoop, egkBins, hpower, horder]
          by_cases hone : 2 ^ k ≤ value
          · rw [if_pos ⟨hone, by omega⟩, if_pos hone, encodeBins, List.foldlM_cons]
            congr 1
            funext e'
            rw [sub_of_le hone, some_bind, add32_of_lt (by omega), some_bind,
              add32_of_lt (by omega), some_bind]
            by_cases hlast : left = 0
            · subst hlast
              rw [if_pos (by omega)]
              rfl
            · rw [if_neg (by omega)]
              exact ih e' (by omega) (by omega) (by omega) (by omega) (by omega)
          · rw [if_neg (fun h => hone h.1), if_neg hone, encodeBins, List.foldlM_cons]
            congr 1
            funext e'
            rw [CabacEncoder.encodeBypassBits, min_eq_left (by omega)]
            exact bypassBitsLoop_eq k e' value

/-- The encoder writes the bins of the suffix. -/
theorem encodeBypassEgk_eq (e : CabacEncoder) {k value : Nat} (hk : k ≤ 31)
    (hvalue : value < 4294967296) :
    e.encodeBypassEgk k value = encodeBins e (egkBins (32 - k) value) := by
  rw [CabacEncoder.encodeBypassEgk, min_eq_left hk]
  exact egkLoop_eq e (by omega) (by omega) (Nat.zero_le k) hvalue (by omega)

/-! ## Reading the bins -/

namespace CabacDecoder

/-- The next bins without a context are these, and reading them leads to an engine. -/
def Reads : CabacDecoder → List Bool → CabacDecoder → Prop
  | d, [], d' => d' = d
  | d, bin :: bins, d' => ∃ d₁, d.decodeBypass = some (d₁, bin.toNat) ∧ Reads d₁ bins d'

variable {d d' : CabacDecoder}

/-- A field of bins is the number that they are the bits of. -/
theorem bypassBitsLoop_of_reads {n value acc : Nat} (hn : n ≤ 32) (hacc : acc < 2 ^ (32 - n))
    (h : d.Reads (bitBins n value) d') :
    bypassBitsLoop n d acc = some (d', acc * 2 ^ n + value % 2 ^ n) := by
  induction n generalizing d acc with
  | zero =>
      cases h
      simp [bypassBitsLoop, Nat.mod_one]
  | succ n ih =>
      rcases h with ⟨d₁, hbypass, hrest⟩
      have hpow : 2 ^ (32 - n) = 2 * 2 ^ (32 - (n + 1)) := by
        rw [← Nat.pow_succ']
        congr 1
        omega
      have hcard : 2 ^ (32 - n) ≤ 2 ^ 32 := Nat.pow_le_pow_right (by decide) (by omega)
      have hbin : (value.testBit n).toNat < 2 := Bool.toNat_lt _
      rw [bypassBitsLoop, shl32_one (by omega), some_bind, hbypass, some_bind]
      dsimp only
      rw [two_mul_or hbin, ih (by omega) (by omega) hrest, Nat.mod_pow_succ, Nat.toNat_testBit,
        Nat.pow_succ]
      congr 2
      ring

/-- The decoder gives the value of a suffix back, or is malformed where the run leaves the word. -/
theorem egkLoop_of_reads {left fuel run k acc value : Nat} (hk : k + left = 32) (hleft : 0 < left)
    (hrun : run ≤ k) (hvalue : acc + value < 4294967296) (hfuel : left ≤ fuel)
    (h : d.Reads (egkBins left value) d') :
    egkLoop fuel d k acc run =
      if value + 2 ^ k < 4294967296 then some (d', acc + value)
      else some ({ d' with flagged := true }, acc + (4294967296 - 2 ^ k)) := by
  induction left generalizing fuel run k acc value d with
  | zero => omega
  | succ left ih =>
      cases fuel with
      | zero => omega
      | succ fuel =>
          have horder : 31 - left = k := by omega
          have hpower : powerOr0 k = 2 ^ k := if_pos (by omega)
          have hword : 2 ^ k ≤ 2 ^ 31 := Nat.pow_le_pow_right (by decide) (by omega)
          rw [egkBins, horder] at h
          rw [egkLoop]
          by_cases hone : 2 ^ k ≤ value
          · rw [if_pos hone] at h
            rcases h with ⟨d₁, hbypass, hrest⟩
            have hsum : saturating acc (powerOr0 k) = acc + 2 ^ k := by
              rw [hpower, saturating, min_eq_left (by omega)]
            rw [hbypass, some_bind]
            dsimp only
            rw [if_pos Bool.toNat_true, hsum, add32_of_lt (by omega), some_bind,
              add32_of_lt (by omega), some_bind]
            by_cases hlast : left = 0
            · have hk31 : k = 31 := by omega
              subst hlast hk31
              cases hrest
              rw [if_pos (by omega), if_neg (by omega),
                show 4294967296 - 2 ^ 31 = 2 ^ 31 by decide]
            · rw [if_neg (by omega), ih (by omega) (by omega) (by omega) (by omega) (by omega) hrest]
              have hnext : value - 2 ^ k + 2 ^ (k + 1) = value + 2 ^ k := by
                rw [Nat.pow_succ]
                omega
              have hroom : 2 ^ (k + 1) ≤ 2 ^ 31 := Nat.pow_le_pow_right (by decide) (by omega)
              rw [Nat.pow_succ] at hroom
              rw [hnext]
              split
              · congr 2
                omega
              · rw [Nat.pow_succ]
                congr 2
                omega
          · rw [if_neg hone] at h
            rcases h with ⟨d₁, hbypass, hrest⟩
            have hfield : d₁.decodeBypassBits k = some (d', value) := by
              rw [decodeBypassBits, min_eq_left (by omega),
                bypassBitsLoop_of_reads (by omega) (by positivity) hrest, Nat.zero_mul,
                Nat.zero_add, Nat.mod_eq_of_lt (by omega)]
            rw [hbypass, some_bind]
            dsimp only
            rw [if_neg (by decide), hfield, some_bind, if_pos (by omega)]
            dsimp only
            rw [saturating, min_eq_left (by omega)]

/-- A suffix comes back below the greatest value of its order, and is malformed from there on. -/
theorem decodeBypassEgk_eq {k value : Nat} (hk : k ≤ 31) (hvalue : value < 4294967296)
    (h : d.Reads (egkBins (32 - k) value) d') :
    d.decodeBypassEgk k =
      if value + 2 ^ k < 4294967296 then some (d', value)
      else some ({ d' with flagged := true }, 4294967296 - 2 ^ k) := by
  have hloop : egkLoop 32 d k 0 0 = if value + 2 ^ k < 4294967296 then some (d', 0 + value)
      else some ({ d' with flagged := true }, 0 + (4294967296 - 2 ^ k)) :=
    egkLoop_of_reads (by omega) (by omega) (Nat.zero_le k) (by omega) (by omega) h
  rw [decodeBypassEgk, min_eq_left hk, hloop, Nat.zero_add, Nat.zero_add]

end CabacDecoder

/-- A run over bypass operations that brings their bins back reads them. -/
theorem reads_of_run {n : Nat} {d d' : CabacState n} {bins : List Bool}
    (h : run decodeOp d (bypassOps n bins) =
      some (d', (bypassOps n bins).map CabacOp.value)) :
    d.decoder.Reads bins d'.decoder ∧ d'.contexts = d.contexts := by
  induction bins generalizing d with
  | nil =>
      rw [bypassOps, List.map_nil, run_nil, Option.some.injEq, Prod.mk.injEq] at h
      rw [h.1]
      exact ⟨rfl, rfl⟩
  | cons bin bins ih =>
      rcases run_cons_inv h with ⟨t, b, rest, hstep, hrest, hanswers⟩
      rw [bypassOps, List.map_cons, List.map_cons, List.cons.injEq] at hanswers
      rcases hanswers with ⟨rfl, rfl⟩
      rcases ih hrest with ⟨hreads, hcontexts⟩
      rw [decodeOp, CabacOp.call, cabacStep] at hstep
      cases hbypass : d.decoder.decodeBypass with
      | none =>
          rw [hbypass] at hstep
          cases hstep
      | some next =>
          rcases next with ⟨d₁, b⟩
          rw [hbypass, some_bind] at hstep
          dsimp only at hstep
          rw [Option.some.injEq, Prod.mk.injEq] at hstep
          rcases hstep with ⟨rfl, hbin⟩
          have hsame : b = bin.toNat := by
            rw [CabacOp.value, CabacOp.bin] at hbin
            exact_mod_cast hbin
          subst hsame
          exact ⟨⟨d₁, hbypass, hreads⟩, hcontexts⟩

/-! ## Suffixes in a stream -/

variable {n : Nat}

/-- Encode the bypass suffix of a value with an encoder that has contexts. -/
def encodeEgk (s : CabacSource n) (k value : Nat) : Option (CabacSource n) :=
  (s.encoder.encodeBypassEgk k value).map fun e => ⟨e, s.contexts⟩

/-- Some further operations come back, the contexts end alike and the terminating bin is one. -/
def Aligned (d : CabacState n) (s : CabacSource n) (ops : List (CabacOp n)) : Prop :=
  ∃ d' final, run decodeOp d ops = some (d', ops.map CabacOp.value) ∧
    d'.contexts = s.contexts ∧ d'.decoder.decodeTerminate = some (final, 1) ∧
    final.malformed = false

/-- A suffix between any operations comes back below the greatest value of its order, with the
engines aligned behind it; from there on the decoder is malformed. -/
theorem bypass_egk_round_trips (limit : Nat) (hlimit : limit < 2305843009213693952)
    (contexts : Fin n → ContextModel) (hvalid : ∀ i, (contexts i).packed ≤ 127) (k : Nat)
    (hk : k ≤ 31) (value : BitVec 32) (before after : List (CabacOp n)) :
    ∃ s₁ s₂ s last, before.foldlM encodeOp ⟨CabacEncoder.withLimit limit, contexts⟩ = some s₁ ∧
      encodeEgk s₁ k value.toNat = some s₂ ∧ after.foldlM encodeOp s₂ = some s ∧
      s.encoder.encodeTerminate 1 = some last ∧
      (last.finish.length < limit →
        ∃ (hfit : last.finish.length < 9223372036854775808) (d₁ : CabacState n)
          (d₂ : CabacDecoder) (decoded : Nat),
          run decodeOp ⟨CabacDecoder.new ⟨last.finish, hfit⟩, contexts⟩ before =
            some (d₁, before.map CabacOp.value) ∧
          d₁.decoder.decodeBypassEgk k = some (d₂, decoded) ∧
          (value.toNat ≤ 4294967296 - 2 ^ k - 1 →
            decoded = value.toNat ∧ d₂.malformed = false ∧ Aligned ⟨d₂, d₁.contexts⟩ s after) ∧
          (4294967296 - 2 ^ k - 1 < value.toNat → d₂.malformed = true)) := by
  have hvalue := value.isLt
  have hword : 2 ^ k ≤ 2 ^ 31 := Nat.pow_le_pow_right (by decide) hk
  generalize hbins : bypassOps n (egkBins (32 - k) value.toNat) = bins
  rcases terminated_parts limit hlimit contexts hvalid (before ++ bins ++ after) with
    ⟨s, last, hencode, hlast, hparts⟩
  -- The encoder on the three parts.
  rw [List.foldlM_append, List.foldlM_append] at hencode
  cases hfirst : before.foldlM encodeOp ⟨CabacEncoder.withLimit limit, contexts⟩ with
  | none =>
      rw [hfirst] at hencode
      cases hencode
  | some s₁ =>
      rw [hfirst, some_bind] at hencode
      have hegk : bins.foldlM encodeOp s₁ = encodeEgk s₁ k value.toNat := by
        rw [← hbins, foldlM_bypassOps, encodeEgk, encodeBypassEgk_eq s₁.encoder hk hvalue]
      cases hsecond : encodeEgk s₁ k value.toNat with
      | none =>
          rw [hegk, hsecond] at hencode
          cases hencode
      | some s₂ =>
          rw [hegk, hsecond, some_bind] at hencode
          refine ⟨s₁, s₂, s, last, rfl, hsecond, hencode, hlast, ?_⟩
          intro hbelow
          rcases hparts hbelow with ⟨hfit, hparts⟩
          -- The decoder behind the first part, the suffix and the whole.
          rcases hparts before (bins ++ after) (List.append_assoc _ _ _) with
            ⟨d₁, -, hrun₁, -⟩
          rcases hparts (before ++ bins) after rfl with
            ⟨d₂, -, hrun₂, -, -, hflagged, hsound, -⟩
          rcases hparts (before ++ bins ++ after) [] (List.append_nil _).symm with
            ⟨d₃, s', hrun₃, hencode', hcontexts, -, -, hend⟩
          have hsame : s' = s := by
            rw [List.foldlM_append, List.foldlM_append, hfirst, some_bind, hegk, hsecond, some_bind,
              hencode, Option.some.injEq] at hencode'
            exact hencode'.symm
          subst hsame
          rw [List.map_append] at hrun₃
          have hrest := run_split hrun₂ hrun₃
          rw [List.map_append] at hrun₂
          have hmiddle := run_split hrun₁ hrun₂
          rw [← hbins] at hmiddle
          rcases reads_of_run hmiddle with ⟨hreads, hkept⟩
          have hdecode := CabacDecoder.decodeBypassEgk_eq hk hvalue hreads
          by_cases hrange : value.toNat + 2 ^ k < 4294967296
          · rw [if_pos hrange] at hdecode
            refine ⟨hfit, d₁, d₂.decoder, _, hrun₁, hdecode, fun _ => ⟨rfl, hsound, ?_⟩,
              fun hlarge => by omega⟩
            rcases hend rfl with ⟨final, hone, hfinal⟩
            rw [← hkept]
            exact ⟨d₃, final, hrest, hcontexts, hone, hfinal⟩
          · rw [if_neg hrange] at hdecode
            refine ⟨hfit, d₁, _, _, hrun₁, hdecode, fun hsmall => by omega, fun _ => ?_⟩
            rw [CabacDecoder.malformed, Bool.true_or]

/-- The suffix of order zero of one thousand, between a decision and two bypass bins: it comes
back from four bytes. -/
theorem bypass_egk_round_trips_thousand :
    ∃ s₁ s₂ s last,
      [CabacOp.decision (0 : Fin 1) true].foldlM encodeOp ⟨CabacEncoder.new, fun _ => ⟨40⟩⟩ =
        some s₁ ∧
      encodeEgk s₁ 0 1000 = some s₂ ∧
      [CabacOp.bypass true, CabacOp.bypass false].foldlM encodeOp s₂ = some s ∧
      s.encoder.encodeTerminate 1 = some last ∧ last.finish.length = 4 ∧
      ∃ (hfit : last.finish.length < 9223372036854775808) (d₁ : CabacState 1)
        (d₂ : CabacDecoder),
        run decodeOp ⟨CabacDecoder.new ⟨last.finish, hfit⟩, fun _ => ⟨40⟩⟩
          [CabacOp.decision (0 : Fin 1) true] = some (d₁, [1]) ∧
        d₁.decoder.decodeBypassEgk 0 = some (d₂, 1000) ∧ d₂.malformed = false ∧
        Aligned ⟨d₂, d₁.contexts⟩ s [CabacOp.bypass true, CabacOp.bypass false] := by
  have hlength : ((([CabacOp.decision (0 : Fin 1) true].foldlM encodeOp
      ⟨CabacEncoder.new, fun _ => ⟨40⟩⟩).bind fun s₁ => encodeEgk s₁ 0 1000).bind fun s₂ =>
      ([CabacOp.bypass true, CabacOp.bypass false].foldlM encodeOp s₂).bind fun s =>
        (s.encoder.encodeTerminate 1).map fun last => last.finish.length) = some 4 := by
    decide +kernel
  rcases bypass_egk_round_trips 16777216 (by decide) (fun _ => ⟨40⟩) (by decide) 0 (by decide)
      1000#32 [CabacOp.decision (0 : Fin 1) true] [CabacOp.bypass true, CabacOp.bypass false] with
    ⟨s₁, s₂, s, last, hbefore, hsuffix, hafter, hlast, hback⟩
  rw [CabacEncoder.new, hbefore, Option.bind_some,
    show encodeEgk s₁ 0 1000 = some s₂ from hsuffix, Option.bind_some, hafter, Option.bind_some,
    hlast, Option.map_some, Option.some.injEq] at hlength
  rcases hback (by omega) with ⟨hfit, d₁, d₂, decoded, hrun, hdecode, hsmall, -⟩
  rcases hsmall (by decide) with ⟨rfl, hsound, haligned⟩
  exact ⟨s₁, s₂, s, last, hbefore, hsuffix, hafter, hlast, hlength, hfit, d₁, d₂, hrun, hdecode,
    hsound, haligned⟩

end Codec
end Vaco
