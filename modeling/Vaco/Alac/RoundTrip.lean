import Vaco.Alac.Predictor
import Vaco.Alac.Rice

/-!
# Coding and decoding a block

The two loops keep the same mean and the same mark behind a run of zeros, code by code: what
the decoder reads is what the coder folded, so both adapt alike and the reader stands where the
writer stood.

Main results:

- `dynDecomp_dynComp`: the differences come back from their codes.
- `alac_round_trip`: samples and coefficients come back, up to 2^32 samples.
-/

namespace Vaco
namespace Alac

open Library BitStream Bitstream Transducer Vaco.Sched

/-! ## The loops -/

/-- Fold a difference into a number without a sign, less one behind a run. -/
def foldDifference (del : BitVec 32) (zmode : Bool) : BitVec 32 :=
  BitVec.ofNat 32 (2 * del.toInt.natAbs) - (if del.toInt < 0 then 1 else 0) -
    (if zmode then 1 else 0)

/-- The difference that a number stands for. -/
def unfoldDifference (ndecode : BitVec 32) : BitVec 32 :=
  let multiplier : Int := if ndecode &&& 1 = 1 then -1 else 1
  BitVec.ofInt 32 (((ndecode.toNat : Int) + 1) / 2 * multiplier)

/-- The zeros in front, up to a limit. -/
def zeroRun : Nat → List (BitVec 32) → Nat
  | 0, _ => 0
  | _, [] => 0
  | limit + 1, del :: rest => if del = 0 then zeroRun limit rest + 1 else 0

/-- The mean is so small that zeros are counted. -/
def CountsRun (mb : BitVec 32) : Prop :=
  (mb <<< mmulShift).toNat < qb

instance (mb : BitVec 32) : Decidable (CountsRun mb) :=
  inferInstanceAs (Decidable (_ < _))

def dynCompLoop (params : AgParams) (maxbits : Nat) :
    Nat → BitWriter → BitVec 32 → Bool → List (BitVec 32) → BitWriter
  | 0, w, _, _, _ => w
  | _ + 1, w, _, _, [] => w
  | fuel + 1, w, mb, zmode, del :: rest =>
      let k := params.width mb
      let n := foldDifference del zmode
      let w := dynCode32bit w (2 ^ k - 1) k n maxbits
      let mb := params.adaptMean mb n zmode
      if CountsRun mb ∧ rest ≠ [] then
        let run := zeroRun maxRun rest
        let w := dynCode16bit w (params.runDivisor mb) (AgParams.runWidth mb) (BitVec.ofNat 32 run)
        dynCompLoop params maxbits fuel w 0 (decide (run < maxRun)) (rest.drop run)
      else
        dynCompLoop params maxbits fuel w mb false rest

/-- Write the differences of a block. -/
def dynComp (params : AgParams) (w : BitWriter) (residuals : List (BitVec 32)) (maxbits : Nat) :
    BitWriter :=
  dynCompLoop params maxbits residuals.length w params.mb0 false residuals

/-- Read a number of differences, at a mean and perhaps behind a run. -/
def dynDecompLoop (params : AgParams) (maxbits : Nat) :
    Nat → BitReader → BitVec 32 → Bool → Nat → BitReader × List (BitVec 32)
  | 0, r, _, _, _ => (r, [])
  | _ + 1, r, _, _, 0 => (r, [])
  | fuel + 1, r, mb, zmode, left + 1 =>
      let k := params.width mb
      let n := dynGet32bit (2 ^ k - 1) k maxbits r
      let del := unfoldDifference (n.2 + if zmode then 1 else 0)
      let mb := params.adaptMean mb n.2 zmode
      if CountsRun mb ∧ 0 < left then
        let count := dynGet16bit (params.runDivisor mb) (AgParams.runWidth mb) n.1
        let run := min count.2.toNat (left % 2 ^ 32)
        let rest := dynDecompLoop params maxbits fuel count.1 0 (decide (run < maxRun)) (left - run)
        (rest.1, del :: (List.replicate run 0 ++ rest.2))
      else
        let rest := dynDecompLoop params maxbits fuel n.1 mb false left
        (rest.1, del :: rest.2)

/-- Read the differences of a block. -/
def dynDecomp (params : AgParams) (r : BitReader) (numSamples maxbits : Nat) :
    BitReader × List (BitVec 32) :=
  dynDecompLoop params maxbits numSamples r params.mb0 false numSamples

/-! ## Folding -/

theorem toNat_zigzag (del : BitVec 32) :
    (BitVec.ofNat 32 (2 * del.toInt.natAbs) - (if del.toInt < 0 then 1 else 0)).toNat =
      if del.toInt < 0 then 2 * del.toInt.natAbs - 1 else 2 * del.toInt.natAbs := by
  have hlow : -2 ^ (32 - 1) ≤ del.toInt := BitVec.le_toInt del
  have hhigh : del.toInt < 2 ^ (32 - 1) := BitVec.toInt_lt
  split
  · rw [BitVec.toNat_sub, BitVec.toNat_ofNat]
    simp
    omega
  · rw [BitVec.toNat_sub, BitVec.toNat_ofNat]
    simp
    omega

theorem unfold_foldDifference (del : BitVec 32) (zmode : Bool) :
    unfoldDifference (foldDifference del zmode + if zmode then 1 else 0) = del := by
  have hfolded := toNat_zigzag del
  rw [foldDifference, BitVec.sub_add_cancel]
  generalize BitVec.ofNat 32 (2 * del.toInt.natAbs) - (if del.toInt < 0 then 1 else 0) = folded
    at hfolded
  have hodd : folded &&& 1 = 1 ↔ folded.toNat % 2 = 1 := by
    rw [← BitVec.toNat_inj, BitVec.toNat_and]
    simp [Nat.and_one_is_mod]
  have hvalue : ((folded.toNat : Int) + 1) / 2 * (if folded &&& 1 = 1 then -1 else 1) =
      del.toInt := by
    simp only [hodd]
    split at hfolded <;> split <;> omega
  rw [unfoldDifference, hvalue, BitVec.ofInt_toInt]

/-- The folded number of a difference fits the width of the channel, but for a zero behind a run. -/
theorem foldDifference_lt {chanbits : Nat} (hpos : 0 < chanbits) {del : BitVec 32}
    (hdel : Fits chanbits del) {zmode : Bool} (hzero : zmode = true → del ≠ 0) :
    (foldDifference del zmode).toNat < 2 ^ chanbits := by
  have hfolded := toNat_zigzag del
  have hpow : (2 : Int) ^ chanbits = 2 * 2 ^ (chanbits - 1) := by
    rw [← pow_succ', Nat.sub_add_cancel hpos]
  have hcast : ((2 ^ chanbits : Nat) : Int) = 2 * 2 ^ (chanbits - 1) := by
    rw [← hpow]
    norm_num
  rcases hdel with ⟨hlow, hhigh⟩
  have hfit : (BitVec.ofNat 32 (2 * del.toInt.natAbs) - (if del.toInt < 0 then 1 else 0)).toNat <
      2 ^ chanbits := by
    rw [hfolded]
    split <;> omega
  rw [foldDifference]
  cases zmode with
  | false => simpa using hfit
  | true =>
      have hne : del.toInt ≠ 0 := by
        rw [ne_eq, ← BitVec.toInt_zero (w := 32), BitVec.toInt_inj]
        exact hzero rfl
      have hone : (1 : BitVec 32) ≤ BitVec.ofNat 32 (2 * del.toInt.natAbs) -
          (if del.toInt < 0 then 1 else 0) := by
        rw [BitVec.le_def, hfolded]
        simp
        split <;> omega
      rw [if_pos rfl, BitVec.toNat_sub_of_le hone]
      omega

/-! ## Runs of zeros -/

theorem zeroRun_le (limit : Nat) (rest : List (BitVec 32)) :
    zeroRun limit rest ≤ limit ∧ zeroRun limit rest ≤ rest.length := by
  induction limit generalizing rest with
  | zero => simp [zeroRun]
  | succ limit ih =>
      cases rest with
      | nil => simp [zeroRun]
      | cons del rest =>
          have hrest := ih rest
          rw [zeroRun, List.length_cons]
          split <;> omega

theorem replicate_zeroRun (limit : Nat) (rest : List (BitVec 32)) :
    List.replicate (zeroRun limit rest) 0 ++ rest.drop (zeroRun limit rest) = rest := by
  induction limit generalizing rest with
  | zero => simp [zeroRun]
  | succ limit ih =>
      cases rest with
      | nil => simp [zeroRun]
      | cons del rest =>
          rw [zeroRun]
          split
          · rename_i hzero
            rw [hzero, List.replicate_succ, List.drop_succ_cons, List.cons_append, ih]
          · rfl

theorem head?_drop_zeroRun {limit : Nat} {rest : List (BitVec 32)}
    (h : zeroRun limit rest < limit) : (rest.drop (zeroRun limit rest)).head? ≠ some 0 := by
  induction limit generalizing rest with
  | zero => omega
  | succ limit ih =>
      cases rest with
      | nil => simp [zeroRun]
      | cons del rest =>
          rw [zeroRun] at h ⊢
          split at h
          · rename_i hzero
            rw [if_pos hzero, List.drop_succ_cons]
            exact ih (by omega)
          · rename_i hzero
            rw [if_neg hzero]
            simpa using hzero

/-! ## In lock step -/

variable {w : BitWriter} {chanbits : Nat}

theorem AgParams.width_bounds (params : AgParams) (mb : BitVec 32) :
    0 < params.width mb ∧ params.width mb ≤ 32 := by
  unfold AgParams.width lg3a
  omega

theorem AgParams.runDivisor_lt (params : AgParams) (mb : BitVec 32) :
    params.runDivisor mb < 2 ^ AgParams.runWidth mb := by
  have hle := Nat.and_le_left (n := 2 ^ AgParams.runWidth mb - 1) (m := params.wb.toNat)
  have hpos := Nat.two_pow_pos (AgParams.runWidth mb)
  unfold AgParams.runDivisor
  omega

/-- From one mean and one mark the differences come back, and the reader ends where the writer does.
-/
theorem coded_dynCompLoop (params : AgParams) (hpos : 0 < chanbits) (hle : chanbits ≤ 32)
    {fuel : Nat} (mb : BitVec 32) (zmode : Bool) {residuals : List (BitVec 32)} (hw : w.Wf)
    (hfuel : residuals.length ≤ fuel) (hlen : residuals.length ≤ 2 ^ 32)
    (hfits : ∀ del ∈ residuals, Fits chanbits del)
    (hzmode : zmode = true → residuals.head? ≠ some 0) :
    ∃ width ≤ 66 * fuel, Coded w (dynCompLoop params chanbits fuel w mb zmode residuals)
      (fun r => dynDecompLoop params chanbits fuel r mb zmode residuals.length) residuals
      width := by
  induction fuel generalizing w mb zmode residuals with
  | zero =>
      have hnil := List.eq_nil_of_length_eq_zero (Nat.le_zero.mp hfuel)
      subst hnil
      exact ⟨0, Nat.zero_le _, coded_nothing hw []⟩
  | succ fuel ih =>
      cases residuals with
      | nil => exact ⟨0, Nat.zero_le _, coded_nothing hw []⟩
      | cons del rest =>
          rw [List.length_cons] at hfuel hlen
          have hrest : ∀ del ∈ rest, Fits chanbits del :=
            fun del hdel => hfits del (List.mem_cons_of_mem _ hdel)
          have hnumber : (foldDifference del zmode).toNat < 2 ^ chanbits := by
            refine foldDifference_lt hpos (hfits del List.mem_cons_self) ?_
            intro hmode hzero
            exact hzmode hmode (by rw [hzero, List.head?_cons])
          have hbounds := params.width_bounds mb
          rcases dynGet32bit_dynCode32bit hw hbounds.1 hbounds.2 hle hnumber with
            ⟨width, hwidth, hcode⟩
          have hback := unfold_foldDifference del zmode
          rw [List.length_cons, dynCompLoop]
          generalize foldDifference del zmode = n at hcode hback
          generalize hmb : params.adaptMean mb n zmode = mb'
          dsimp only
          by_cases hrun : CountsRun mb' ∧ rest ≠ []
          · have hleft : CountsRun mb' ∧ 0 < rest.length :=
              ⟨hrun.1, List.length_pos_iff.mpr hrun.2⟩
            rw [if_pos hrun]
            have hback' := replicate_zeroRun maxRun rest
            have hbehind : zeroRun maxRun rest < maxRun →
                (rest.drop (zeroRun maxRun rest)).head? ≠ some 0 := head?_drop_zeroRun
            have hrunLe := zeroRun_le maxRun rest
            generalize zeroRun maxRun rest = run at hback' hbehind hrunLe
            have hmax : maxRun = 65535 := rfl
            have hcount : (BitVec.ofNat 32 run).toNat = run := by
              rw [BitVec.toNat_ofNat]
              omega
            rcases dynGet16bit_dynCode16bit hcode.wf (params.runDivisor_lt mb')
              (show AgParams.runWidth mb' ≤ 32 by unfold AgParams.runWidth; omega)
              (n := BitVec.ofNat 32 run) (by rw [hcount, maxDatatypeBits16]; omega) with
              ⟨width', hwidth', hcode'⟩
            have hlength : (rest.drop run).length = rest.length - run := List.length_drop
            rcases ih 0 (decide (run < maxRun)) hcode'.wf
              (show (rest.drop run).length ≤ fuel by omega) (by omega)
              (fun del hdel => hrest del (List.mem_of_mem_drop hdel))
              (fun hmode => hbehind (of_decide_eq_true hmode)) with ⟨width'', hwidth'', hloop⟩
            have hstart := hcode.andThen hcode'
            have hall := (hstart.andThen hloop).map
              (fun behind => del :: (List.replicate run 0 ++ behind))
            rw [hback'] at hall
            refine ⟨width + width' + width'', by omega, hall.congr ?_⟩
            intro r hr hfollows
            have hstart' := hloop.follows hfollows
            have hn := (hcode.reads r hr (hcode'.follows hstart')).2
            have hcount' := (hstart.reads r hr hstart').2
            have hcut : min run (rest.length % 2 ^ 32) = run := by omega
            simp only [dynDecompLoop, hn, hmb, hback, if_pos hleft, hcount', hcount, hcut,
              List.length_drop]
          · have hleft : ¬ (CountsRun mb' ∧ 0 < rest.length) := by
              rwa [List.length_pos_iff]
            rw [if_neg hrun]
            rcases ih mb' false hcode.wf (show rest.length ≤ fuel by omega) (by omega) hrest
              (by simp) with ⟨width', hwidth', hloop⟩
            have hall := (hcode.andThen hloop).map (del :: ·)
            refine ⟨width + width', by omega, hall.congr ?_⟩
            intro r hr hfollows
            have hn := (hcode.reads r hr (hloop.follows hfollows)).2
            simp only [dynDecompLoop, hn, hmb, hback, if_neg hleft]

/-! ## Blocks -/

/-- The differences of a block come back from their codes, and the reader ends where the writer
does. -/
theorem dynDecomp_dynComp (params : AgParams) (hpos : 0 < chanbits) (hle : chanbits ≤ 32)
    {residuals : List (BitVec 32)} (hw : w.Wf) (hlen : residuals.length ≤ 2 ^ 32)
    (hfits : ∀ del ∈ residuals, Fits chanbits del) :
    ∃ width ≤ 66 * residuals.length, Coded w (dynComp params w residuals chanbits)
      (fun r => dynDecomp params r residuals.length chanbits) residuals width :=
  coded_dynCompLoop params hpos hle _ _ hw le_rfl hlen hfits (fun hmode => nomatch hmode)

theorem length_dynDecompLoop (params : AgParams) (maxbits : Nat) {fuel left : Nat}
    (hfuel : left ≤ fuel) (r : BitReader) (mb : BitVec 32) (zmode : Bool) :
    (dynDecompLoop params maxbits fuel r mb zmode left).2.length = left := by
  induction fuel generalizing left r mb zmode with
  | zero => simp [dynDecompLoop, Nat.le_zero.mp hfuel]
  | succ fuel ih =>
      cases left with
      | zero => rfl
      | succ left =>
          simp only [dynDecompLoop]
          split
          · rw [List.length_cons, List.length_append, List.length_replicate, ih (by omega)]
            have hcut : left % 2 ^ 32 ≤ left := Nat.mod_le _ _
            omega
          · rw [List.length_cons, ih (by omega)]

/-- Samples that fit their width and the final coefficients come back, if the budget has room, and
the reader stops behind the last written bit. -/
theorem alac_round_trip (params : AgParams) (chanbits : Nat) (hpos : 1 ≤ chanbits)
    (hle : chanbits ≤ 32) (samples : List (BitVec 32)) (hfits : ∀ s ∈ samples, Fits chanbits s)
    (hlen : samples.length ≤ 2 ^ 32) (coefs : List (BitVec 32)) (order denshift : Nat)
    (budget : Budget) (data : Slice)
    (hdata : data.bytes =
      (dynComp params .new (pcBlock samples coefs order chanbits denshift).1 chanbits).finish) :
    let sent := pcBlock samples coefs order chanbits denshift
    let got := dynDecomp params (.new data) samples.length chanbits
    unpcBlock got.2 coefs order chanbits denshift budget =
        (allocSamples budget samples.length).map (fun budget => ((samples, sent.2), budget)) ∧
      got.1.bitPos = (dynComp params .new sent.1 chanbits).bitLen := by
  intro sent got
  have hsent : sent.1.length = samples.length :=
    length_pcBlock samples coefs order chanbits denshift
  rcases dynDecomp_dynComp params hpos hle BitWriter.wf_new
    (show sent.1.length ≤ 2 ^ 32 by omega)
    (fits_of_mem_pcBlock hpos hle hfits coefs order denshift) with ⟨width, hwidth, hcoded⟩
  rw [hsent] at hwidth hcoded
  have hlength : (dynComp params .new sent.1 chanbits).length = width := by
    rw [hcoded.length]
    exact Nat.zero_add width
  rcases hcoded.reads (.new data) (BitReader.at_start data _) (follows_finish hcoded.wf hdata) with
    ⟨hmove, hvalue⟩
  have hgot : got.2 = sent.1 := hvalue
  have hmax : u64Max = 18446744073709551615 := rfl
  constructor
  · rw [hgot, unpcBlock, hsent, unpcSamples_pcBlock hpos hle hfits]
    cases allocSamples budget samples.length <;> rfl
  · rw [BitWriter.bitLen_eq (by omega)]
    exact hmove.at_pos.bitPos_eq (by omega)

/-- Samples with silence and a jump between the extremes. -/
def mixed : List (BitVec 32) :=
  [3, 0, 0, 0, 0, 0, 0, 0, -5, 100, 20000, -32768, 32767, 0, 0, 0]

def standard : AgParams :=
  .new 10 40 14

/-- A budget without limits of its own. -/
def roomy : Budget :=
  .new ⟨u64Max, u64Max, Nat.le_refl u64Max⟩

/-- What they are coded to. -/
def mixedCode : Bytes :=
  [253, 243, 224, 63, 224, 1, 63, 240, 12, 143, 252, 226, 7, 255, 254, 243, 255, 255, 213, 237, 109,
    127, 116, 35, 189, 129]

/-- The samples come back from 26 bytes. -/
theorem alac_round_trip_mixed :
    ∃ data : Slice, data.bytes = mixedCode ∧
      unpcBlock (dynDecomp standard (.new data) 16 16).2 [0, 0] 2 16 9 roomy =
        (allocSamples roomy 16).map (fun budget => ((mixed, [2, 5]), budget)) ∧
      (dynDecomp standard (.new data) 16 16).1.bitPos = 208 := by
  have hfits : ∀ s ∈ mixed, Fits 16 s := by
    simp [mixed, Fits]
  have hlen : mixed.length ≤ 2 ^ 32 := by
    simp [mixed]
  have hshort : mixedCode.length < 9223372036854775808 := by
    simp [mixedCode]
  have hcode : mixedCode = (dynComp standard .new (pcBlock mixed [0, 0] 2 16 9).1 16).finish := by
    decide +kernel
  have hcoefs : (pcBlock mixed [0, 0] 2 16 9).2 = [2, 5] := by
    decide +kernel
  have hbits : (dynComp standard .new (pcBlock mixed [0, 0] 2 16 9).1 16).bitLen = 208 := by
    decide +kernel
  rcases alac_round_trip standard 16 (by decide) (by decide) mixed hfits hlen [0, 0] 2 9 roomy
    ⟨mixedCode, hshort⟩ hcode with ⟨hback, hpos⟩
  rw [hcoefs] at hback
  exact ⟨⟨mixedCode, hshort⟩, rfl, hback, hpos.trans hbits⟩

/-! ## Beyond a 32-bit count -/

theorem eq_zero_of_unfoldDifference {n : BitVec 32} (h : unfoldDifference n = 0) : n = 0 := by
  have hlt := n.isLt
  have hint := congrArg BitVec.toInt h
  have hzero : (0 : BitVec 32).toInt = 0 := rfl
  rw [unfoldDifference, BitVec.toInt_ofInt, hzero] at hint
  apply BitVec.eq_of_toNat_eq
  show n.toNat = 0
  simp only [Int.bmod_def] at hint
  split at hint <;> split at hint <;> omega

theorem zeroRun_replicate (limit n : Nat) :
    zeroRun limit (List.replicate n 0) = min limit n := by
  induction limit generalizing n with
  | zero => simp [zeroRun]
  | succ limit ih =>
      cases n with
      | zero => rfl
      | succ n =>
          rw [List.replicate_succ, zeroRun, if_pos rfl, ih]
          omega

theorem head?_dynDecompLoop (params : AgParams) (maxbits fuel left : Nat) (r : BitReader)
    (mb : BitVec 32) (zmode : Bool) :
    (dynDecompLoop params maxbits (fuel + 1) r mb zmode (left + 1)).2.head? =
      some (unfoldDifference
        ((dynGet32bit (2 ^ params.width mb - 1) (params.width mb) maxbits r).2 +
          if zmode then 1 else 0)) := by
  simp only [dynDecompLoop]
  split <;> rfl

/-- One zero and a run behind it that a 32-bit count takes for none do not come back. -/
theorem dynDecomp_zeros {left : Nat} (hleft : left = 2 ^ 32) :
    ∃ data : Slice,
      data.bytes = (dynComp standard .new (List.replicate (left + 1) 0) 16).finish ∧
        (dynDecomp standard (.new data) (left + 1) 16).2[1]? = some (-1 : BitVec 32) := by
  have hmax : maxRun = 65535 := rfl
  have hmean : standard.adaptMean 10 0 false = 10 := by decide
  have hcounts : CountsRun 10 := by decide
  rcases dynGet32bit_dynCode32bit BitWriter.wf_new (standard.width_bounds 10).1
    (standard.width_bounds 10).2 (show 16 ≤ 32 by omega) (n := 0) (by decide) with
    ⟨width₁, hwidth₁, hfirst⟩
  rcases dynGet16bit_dynCode16bit hfirst.wf (standard.runDivisor_lt 10)
    (show AgParams.runWidth 10 ≤ 32 by decide) (n := BitVec.ofNat 32 maxRun) (by decide) with
    ⟨width₂, hwidth₂, hrun⟩
  have hzeros : (List.replicate (left - maxRun) (0 : BitVec 32)).length ≤ left := by
    rw [List.length_replicate]
    omega
  rcases coded_dynCompLoop standard (show 0 < 16 by omega) (show 16 ≤ 32 by omega) 0 false hrun.wf
    hzeros (by omega)
    (by
      intro del hdel
      rw [List.eq_of_mem_replicate hdel]
      decide)
    (fun hmode => nomatch hmode) with ⟨width₃, hwidth₃, hloop⟩
  have hall := (hfirst.andThen hrun).andThen hloop
  have hwritten : dynComp standard .new (List.replicate (left + 1) 0) 16 =
      dynCompLoop standard 16 left (dynCode16bit (dynCode32bit .new (2 ^ standard.width 10 - 1)
        (standard.width 10) 0 16) (standard.runDivisor 10) (AgParams.runWidth 10)
        (BitVec.ofNat 32 maxRun)) 0 false (List.replicate (left - maxRun) 0) := by
    have hrest : CountsRun 10 ∧ List.replicate left (0 : BitVec 32) ≠ [] := by
      refine ⟨hcounts, ?_⟩
      rw [ne_eq, List.replicate_eq_nil_iff]
      omega
    have hlong : min maxRun left = maxRun := by omega
    have hfolded : foldDifference 0 false = 0 := by decide
    have hmb : standard.mb0 = 10 := rfl
    rw [dynComp, List.length_replicate, List.replicate_succ, dynCompLoop]
    simp only [hfolded, hmb, hmean, if_pos hrest, zeroRun_replicate, hlong, List.drop_replicate]
    rw [show decide (maxRun < maxRun) = false from decide_eq_false (lt_irrefl _)]
  rw [hwritten]
  generalize dynCompLoop standard 16 left _ 0 false _ = w' at hloop hall
  have hbytes := hall.wf.finish.2.2
  have hlength := hall.length
  have hnew : BitWriter.new.length = 0 := rfl
  have hshort : w'.finish.length < 9223372036854775808 := by omega
  refine ⟨⟨w'.finish, hshort⟩, rfl, ?_⟩
  generalize hr : BitReader.new ⟨w'.finish, hshort⟩ = r
  have hat : r.At 0 := hr ▸ BitReader.at_start _ _
  have hfollows : Follows r w' := follows_finish hall.wf (by rw [← hr]; rfl)
  have hnumber := (hfirst.reads r hat (hrun.follows (hloop.follows hfollows))).2
  rcases (hfirst.andThen hrun).reads r hat (hloop.follows hfollows) with ⟨hmove, hcount⟩
  have hnext := (hloop.reads _ hmove.at_pos (hfollows.moves hmove)).2
  -- Both decoders read the same code behind the run; it is the one of a zero that follows no run.
  have hcode : (dynGet32bit (2 ^ standard.width 0 - 1) (standard.width 0) 16
      (dynGet16bit (standard.runDivisor 10) (AgParams.runWidth 10)
        (dynGet32bit (2 ^ standard.width 10 - 1) (standard.width 10) 16 r).1).1).2 = 0 := by
    obtain ⟨fuel, rfl⟩ := Nat.exists_eq_add_one_of_ne_zero (show left ≠ 0 by omega)
    obtain ⟨zeros, hzeros⟩ := Nat.exists_eq_add_one_of_ne_zero (show fuel + 1 - maxRun ≠ 0 by omega)
    rw [List.length_replicate, hzeros] at hnext
    have hhead := head?_dynDecompLoop standard 16 fuel zeros
      (dynGet16bit (standard.runDivisor 10) (AgParams.runWidth 10)
        (dynGet32bit (2 ^ standard.width 10 - 1) (standard.width 10) 16 r).1).1 0 false
    rw [hnext, List.replicate_succ, List.head?_cons, Option.some.injEq] at hhead
    apply eq_zero_of_unfoldDifference
    simpa using hhead.symm
  have hrest : CountsRun 10 ∧ 0 < left := ⟨hcounts, by omega⟩
  have hcut : min (BitVec.ofNat 32 maxRun).toNat (left % 2 ^ 32) = 0 := by
    rw [hleft, Nat.mod_self, Nat.min_zero]
  have hmb : standard.mb0 = 10 := rfl
  have hbehind : decide (0 < maxRun) = true := rfl
  have hdel : unfoldDifference (0 + 1) = -1 := by decide
  rw [dynDecomp, dynDecompLoop]
  simp only [hmb, hnumber, hmean, if_pos hrest, hcount, hcut, hbehind, List.replicate_zero,
    List.nil_append, List.getElem?_cons_succ, Nat.sub_zero]
  rw [← List.head?_eq_getElem?]
  obtain ⟨fuel, hfuel⟩ := Nat.exists_eq_add_one_of_ne_zero (show left ≠ 0 by omega)
  rw [hfuel, head?_dynDecompLoop, hcode, if_pos rfl, hdel]

/-- Zeros of which there is one more than a 32-bit count holds do not come back. -/
theorem alac_zeros_differ :
    ∃ (data : Slice) (got : (List (BitVec 32) × List (BitVec 32)) × Budget),
      data.bytes = (dynComp standard .new
        (pcBlock (List.replicate (2 ^ 32 + 1) 0) [] 0 16 9).1 16).finish ∧
      unpcBlock (dynDecomp standard (.new data) (2 ^ 32 + 1) 16).2 [] 0 16 9 roomy = .ok got ∧
      got.1.1 ≠ List.replicate (2 ^ 32 + 1) 0 := by
  generalize hleft : 2 ^ 32 = left
  rcases dynDecomp_zeros hleft.symm with ⟨data, hdata, hgot⟩
  have hlength : (dynDecomp standard (.new data) (left + 1) 16).2.length = left + 1 :=
    length_dynDecompLoop standard 16 le_rfl _ _ _
  have hcode : (pcBlock (List.replicate (left + 1) 0) [] 0 16 9).1 = List.replicate (left + 1) 0 :=
    rfl
  generalize hdecoded : (dynDecomp standard (.new data) (left + 1) 16).2 = out at hgot hlength
  have hout : unpcSamples out [] 0 16 9 = (out, []) := by
    cases out <;> rfl
  have hroom : (left + 1) * 4 ≤ u64Max := by
    have hmax : u64Max = 18446744073709551615 := rfl
    omega
  have halloc : roomy.charge ((left + 1) * 4) =
      .ok { roomy with committed := roomy.committed + (left + 1) * 4 } :=
    Budget.charge_of_le hroom (by simpa [roomy, Budget.new] using hroom)
  refine ⟨data, ((out, []), { roomy with committed := roomy.committed + (left + 1) * 4 }),
    hcode ▸ hdata, ?_, ?_⟩
  · rw [hdecoded, unpcBlock, hlength, allocSamples, if_neg (by omega), halloc, hout]
  · intro hsame
    have hzero : (List.replicate (left + 1) (0 : BitVec 32))[1]? = some 0 := by
      rw [List.getElem?_replicate, if_pos (by omega)]
    rw [show out = List.replicate (left + 1) 0 from hsame, hzero] at hgot
    exact absurd hgot (by decide)

end Alac
end Vaco
