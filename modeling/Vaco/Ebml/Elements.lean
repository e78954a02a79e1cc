import Vaco.Ebml.Vint
import Vaco.Io.ContextWindow

/-!
# Elements

An element is an identifier, the size of its data and the data, which may be further elements.  One
reader walks over elements in memory and cuts a size that is too large to what is there; another
reads a single header from a stream, byte by byte.

Main results:

- `readHeader_next`: the header read from a stream is the one there.
- `elements_round_trip`: the round trip at every level.
-/

namespace Vaco
namespace Ebml

open Library BitStream ByteWords Vaco.Core Io

/-! ## The walk in memory -/

/-- The longest identifier and the longest size to accept. -/
structure Caps where
  maxIdLen : Nat
  maxSizeLen : Nat

/-- The limits that every reader takes. -/
def Caps.default : Caps where
  maxIdLen := 4
  maxSizeLen := MAX_SIZE_LEN

/-- One child element, with its places in the data of its parent. -/
structure Child where
  id : Nat
  data : Bytes
  offset : Nat
  dataOffset : Nat
deriving DecidableEq

/-- An identifier and a size, with the octets they take. -/
def headerAt (caps : Caps) (rest : Bytes) : Option (Nat × Size × Nat) :=
  match readId rest caps.maxIdLen with
  | .error _ => none
  | .ok (id, idLen) =>
      match readSize (rest.drop idLen) caps.maxSizeLen with
      | .error _ => none
      | .ok (size, sizeLen) => some (id, size, idLen + sizeLen)

/-- The part of some bytes that a size covers. -/
def Size.clamp (size : Size) (body : Bytes) : Nat :=
  match size with
  | .known n => min n body.length
  | .unknown => body.length

/-- The child at a place, and the place behind it. -/
def next (caps : Caps) (data : Bytes) (pos : Nat) : Option (Child × Nat) :=
  match headerAt caps (data.drop pos) with
  | none => none
  | some (id, size, headerLen) =>
      let body := data.drop (pos + headerLen)
      let n := size.clamp body
      some (⟨id, body.take n, pos, pos + headerLen⟩, pos + headerLen + n)

/-- The children from a place on, at most a number of them. -/
def childrenFrom (caps : Caps) (data : Bytes) : Nat → Nat → List Child
  | 0, _ => []
  | left + 1, pos =>
      match next caps data pos with
      | none => []
      | some (child, pos) => child :: childrenFrom caps data left pos

/-- The direct children of a master; each takes a byte at least. -/
def children (caps : Caps) (data : Bytes) : List Child :=
  childrenFrom caps data data.length 0

/-! ## The header in a stream -/

/-- The header of an element, with its places in the stream. -/
structure Header where
  id : Nat
  size : Size
  pos : Nat
  dataPos : Nat
deriving DecidableEq

/-- Take some more bytes into a word of some width. -/
def readMore (width : Nat) : Nat → Nat → IoContext → IoContext × Except Error Nat
  | 0, word, c => (c, .ok word)
  | left + 1, word, c =>
      match c.r8 with
      | (c, .error e) => (c, .error e)
      | (c, .ok b) => readMore width left ((word * 256 + b.toNat) % 2 ^ width) c

/-- Read the size behind an identifier. -/
def readHeaderSize (caps : Caps) (pos id : Nat) (c : IoContext) :
    IoContext × Except Error (Option Header) :=
  match c.r8 with
  | (c, .error e) => (c, .error e)
  | (c, .ok first) =>
      match vintLen first with
      | none => (c, .error (.invalidData "element size longer than 8 octets"))
      | some len =>
          if caps.maxSizeLen < len then
            (c, .error (.invalidData "element size longer than EBMLMaxSizeLength"))
          else
            match readMore 64 (len - 1) (first &&& ~~~ marker len).toNat c with
            | (c, .error e) => (c, .error e)
            | (c, .ok value) =>
                (c, .ok (some {
                  id := id
                  size := if value = allOnes len then .unknown else .known value
                  pos := pos
                  dataPos := c.pos }))

/-- Read one header at the position of a stream; none at its end. -/
def readHeader (caps : Caps) (c : IoContext) : IoContext × Except Error (Option Header) :=
  let pos := c.pos
  match c.r8 with
  | (c, .error .unexpectedEof) => (c, .ok none)
  | (c, .error .eof) => (c, .ok none)
  | (c, .error e) => (c, .error e)
  | (c, .ok first) =>
      match vintLen first with
      | none => (c, .error (.invalidData "element id longer than 8 octets"))
      | some len =>
          if caps.maxIdLen < len then
            (c, .error (.invalidData "element id longer than EBMLMaxIDLength"))
          else
            match readMore 32 (len - 1) first.toNat c with
            | (c, .error e) => (c, .error e)
            | (c, .ok id) => readHeaderSize caps pos id c

/-! ## The writer -/

/-- One complete element. -/
def element (id : Nat) (body : Bytes) : Bytes :=
  idBytes id ++ vintMin body.length ++ body

inductive Element where
  | leaf (id : Nat) (data : Bytes)
  | master (id : Nat) (elements : List Element)

/-- The identifier of an element. -/
def Element.id : Element → Nat
  | .leaf id _ => id
  | .master id _ => id

mutual

/-- The data of an element. -/
def Element.body : Element → Bytes
  | .leaf _ data => data
  | .master _ elements => encodeAll elements

/-- Elements one after another. -/
def encodeAll : List Element → Bytes
  | [] => []
  | e :: elements => element e.id e.body ++ encodeAll elements

end

/-- The marker of an unknown size in a number of octets. -/
def vintUnknown (len : Nat) : Bytes :=
  let len := max 1 (min len 8)
  vint (allOnes len) len

/-- The identifiers of one to four octets. -/
def ValidId (id : Nat) : Prop :=
  0x80 ≤ id ∧ id ≤ 0xFF ∨ 0x4000 ≤ id ∧ id ≤ 0x7FFF ∨ 0x200000 ≤ id ∧ id ≤ 0x3FFFFF ∨
    0x10000000 ≤ id ∧ id ≤ 0x1FFFFFFF

instance (id : Nat) : Decidable (ValidId id) :=
  inferInstanceAs (Decidable (_ ∨ _))

mutual

/-- Identifiers and sizes that can be written, at every level. -/
def Element.Valid : Element → Prop
  | .leaf id data => ValidId id ∧ data.length < 2 ^ 56 - 1
  | .master id elements => ValidId id ∧ (encodeAll elements).length < 2 ^ 56 - 1 ∧ AllValid elements

/-- All of some elements can be written. -/
def AllValid : List Element → Prop
  | [] => True
  | e :: elements => e.Valid ∧ AllValid elements

end

/-- The children that some elements written from a place on should be walked as. -/
def expected : Nat → List Element → List Child
  | _, [] => []
  | pos, e :: elements =>
      let headerLen := (idBytes e.id).length + (vintMin e.body.length).length
      ⟨e.id, e.body, pos, pos + headerLen⟩ ::
        expected (pos + headerLen + e.body.length) elements

mutual

def Element.Walked (caps : Caps) : Element → Prop
  | .leaf _ _ => True
  | .master _ elements =>
      children caps (encodeAll elements) = expected 0 elements ∧ AllWalked caps elements

/-- The elements inside some elements are walked as they should, at every level. -/
def AllWalked (caps : Caps) : List Element → Prop
  | [] => True
  | e :: elements => e.Walked caps ∧ AllWalked caps elements

end

/-! ## Headers in memory -/

variable {caps : Caps} {id x : Nat} {size : Size} {body rest : Bytes}

/-- An identifier is a number written in its own width. -/
theorem exists_idBytes (h : ValidId id) :
    ∃ n < 4, ∃ x < 2 ^ (7 * (n + 1)), id = 2 ^ (7 * (n + 1)) + x ∧ idBytes id = vint x (n + 1) := by
  have hwidth : ∃ n < 4, ∃ x < 2 ^ (7 * (n + 1)), id = 2 ^ (7 * (n + 1)) + x ∧
      idBytes id = beBytes (n + 1) id := by
    rcases h with h | h | h | h
    · refine ⟨0, by omega, id - 2 ^ 7, by omega, by omega, ?_⟩
      rw [idBytes, if_pos h]
      rfl
    · refine ⟨1, by omega, id - 2 ^ 14, by omega, by omega, ?_⟩
      rw [idBytes, if_neg (by omega), if_pos (by omega)]
      rfl
    · refine ⟨2, by omega, id - 2 ^ 21, by omega, by omega, ?_⟩
      rw [idBytes, if_neg (by omega), if_neg (by omega), if_pos (by omega)]
      rfl
    · refine ⟨3, by omega, id - 2 ^ 28, by omega, by omega, ?_⟩
      rw [idBytes, if_neg (by omega), if_neg (by omega), if_neg (by omega)]
      rfl
  rcases hwidth with ⟨n, hn, x, hx, rfl, hbytes⟩
  refine ⟨n, hn, x, hx, rfl, ?_⟩
  have hread := beBytes_beNat (vint x (n + 1))
  rw [length_vint (by omega) hx, beNat_marked (by omega) hx] at hread
  rw [hbytes, hread]

theorem headerAt_element (hid : ValidId id) (hbody : body.length < 2 ^ 56 - 1)
    (hmaxId : 4 ≤ caps.maxIdLen) (hmaxSize : 8 ≤ caps.maxSizeLen) :
    headerAt caps (element id body ++ rest) = some (id, .known body.length,
      (idBytes id).length + (vintMin body.length).length) := by
  rcases exists_idBytes hid with ⟨n, hn, x, hx, hval, hbytes⟩
  have hsmall : id < 2 ^ 32 := by
    rcases hid with h | h | h | h <;> omega
  have hread : readId (idBytes id ++ (vintMin body.length ++ (body ++ rest))) caps.maxIdLen =
      .ok (id, (idBytes id).length) := by
    rw [hbytes, length_vint (by omega) hx, readId_vint (by omega) hx (by omega), ← hval,
      Nat.mod_eq_of_lt hsmall]
  rw [headerAt, element, List.append_assoc, List.append_assoc, hread]
  dsimp only
  rw [List.drop_left, readSize_vintMin hbody hmaxSize]

/-- A header stays the same before further bytes. -/
theorem headerAt_append {found : Nat × Size × Nat} (h : headerAt caps rest = some found)
    (more : Bytes) : headerAt caps (rest ++ more) = some found := by
  unfold headerAt at h ⊢
  cases hid : readId rest caps.maxIdLen with
  | error e =>
      rw [hid] at h
      cases h
  | ok pair =>
      rcases pair with ⟨id, idLen⟩
      rw [hid] at h
      dsimp only at h
      cases hsize : readSize (rest.drop idLen) caps.maxSizeLen with
      | error e =>
          rw [hsize] at h
          cases h
      | ok pair =>
          rw [hsize] at h
          rcases readId_append hid more with ⟨hle, hid'⟩
          rw [hid']
          dsimp only
          rw [List.drop_append_of_le_length hle, readSize_append hsize more]
          exact h

/-! ## Written elements are walked -/

theorem le_element (id : Nat) (body : Bytes) : body.length ≤ (element id body).length := by
  rw [element, List.length_append]
  exact Nat.le_add_left _ _

theorem next_element {before : Bytes} (hid : ValidId id) (hbody : body.length < 2 ^ 56 - 1)
    (hmaxId : 4 ≤ caps.maxIdLen) (hmaxSize : 8 ≤ caps.maxSizeLen) :
    next caps (before ++ (element id body ++ rest)) before.length =
      let dataOffset := before.length + ((idBytes id).length + (vintMin body.length).length)
      some (⟨id, body, before.length, dataOffset⟩, dataOffset + body.length) := by
  have hdrop : (before ++ (element id body ++ rest)).drop
      (before.length + ((idBytes id).length + (vintMin body.length).length)) = body ++ rest := by
    rw [← List.drop_drop, List.drop_left, element, ← List.length_append, List.append_assoc,
      List.drop_left]
  rw [next, List.drop_left, headerAt_element hid hbody hmaxId hmaxSize]
  dsimp only
  rw [hdrop, Size.clamp, List.length_append, Nat.min_eq_left (Nat.le_add_right _ _),
    List.take_left]

/-- Written elements are walked with their places, whatever stands before them. -/
theorem childrenFrom_encodeAll (before : Bytes) (left : Nat) (elements : List Element)
    (h : AllValid elements) (hmaxId : 4 ≤ caps.maxIdLen) (hmaxSize : 8 ≤ caps.maxSizeLen)
    (hleft : (encodeAll elements).length ≤ left) :
    childrenFrom caps (before ++ encodeAll elements) left before.length =
      expected before.length elements := by
  induction elements generalizing before left with
  | nil =>
      cases left with
      | zero => rfl
      | succ left =>
          rw [encodeAll, List.append_nil, childrenFrom, next, List.drop_length]
          rfl
  | cons e elements ih =>
      have hvalid : ValidId e.id ∧ e.body.length < 2 ^ 56 - 1 := by
        cases e with
        | leaf id data => exact h.1
        | master id elements => exact ⟨h.1.1, h.1.2.1⟩
      have hpos := length_vintMin_pos hvalid.2
      have hlen : (encodeAll (e :: elements)).length =
          (idBytes e.id).length + (vintMin e.body.length).length + e.body.length +
            (encodeAll elements).length := by
        rw [encodeAll, element]
        simp only [List.length_append]
      cases left with
      | zero => omega
      | succ left =>
          have hrest := ih (before ++ element e.id e.body) left h.2 (by omega)
          have hnext : (before ++ element e.id e.body).length = before.length +
              ((idBytes e.id).length + (vintMin e.body.length).length) + e.body.length := by
            rw [element]
            simp only [List.length_append]
            omega
          rw [hnext, List.append_assoc] at hrest
          rw [encodeAll, childrenFrom, next_element hvalid.1 hvalid.2 hmaxId hmaxSize, expected]
          dsimp only
          rw [hrest]

/-- Written elements are walked with their places. -/
theorem children_encodeAll (elements : List Element) (h : AllValid elements)
    (hmaxId : 4 ≤ caps.maxIdLen) (hmaxSize : 8 ≤ caps.maxSizeLen) :
    children caps (encodeAll elements) = expected 0 elements :=
  childrenFrom_encodeAll [] _ elements h hmaxId hmaxSize (Nat.le_refl _)

mutual

theorem walked_of_valid (hmaxId : 4 ≤ caps.maxIdLen) (hmaxSize : 8 ≤ caps.maxSizeLen) :
    ∀ e : Element, e.Valid → e.Walked caps
  | .leaf _ _, _ => trivial
  | .master _ elements, h =>
      ⟨children_encodeAll elements h.2.2 hmaxId hmaxSize,
        allWalked_of_allValid hmaxId hmaxSize elements h.2.2⟩

theorem allWalked_of_allValid (hmaxId : 4 ≤ caps.maxIdLen) (hmaxSize : 8 ≤ caps.maxSizeLen) :
    ∀ elements : List Element, AllValid elements → AllWalked caps elements
  | [], _ => trivial
  | e :: elements, h =>
      ⟨walked_of_valid hmaxId hmaxSize e h.1, allWalked_of_allValid hmaxId hmaxSize elements h.2⟩

end

/-! ## The two readers -/

variable {m : Medium} {cap : Nat} {c c' : IoContext}

theorem r8_of {r : Except Error (BitVec 8)} (h : c.WellFormed m cap) (hok : ¬ m.Fails)
    (hread : c.r8 = (c', r)) :
    (∃ b, r = .ok b ∧ m.content.drop c.pos = b :: m.content.drop c'.pos ∧
      c'.WellFormed m cap ∧ c'.pos = c.pos + 1) ∨
      r = .error .unexpectedEof ∧ m.content.drop c.pos = [] := by
  rcases IoContext.r8_spec h hread with ⟨b, rfl, hconsumes⟩ | ⟨e, rfl, -, hfails | ⟨rfl, hend⟩⟩
  · refine Or.inl ⟨b, rfl, ?_, hconsumes.wf, hconsumes.pos_eq⟩
    have hdata := hconsumes.data_eq
    rw [hconsumes.pos_eq, ← List.drop_drop]
    cases hrest : m.content.drop c.pos with
    | nil =>
        rw [hrest] at hdata
        cases hdata
    | cons first rest =>
        rw [hrest] at hdata
        rw [(List.cons.inj hdata).1]
        rfl
  · exact absurd hfails hok
  · exact Or.inr ⟨rfl, List.drop_eq_nil_of_le hend⟩

theorem beNat_cons (b : BitVec 8) (bytes : Bytes) :
    beNat (b :: bytes) = b.toNat * 256 ^ bytes.length + beNat bytes := by
  induction bytes using List.reverseRecOn with
  | nil => simp [beNat]
  | append_singleton bytes byte ih =>
      rw [← List.cons_append, beNat_concat, beNat_concat, ih, List.length_append,
        List.length_singleton, pow_succ]
      ring

/-- Some more bytes are taken when they are there. -/
theorem readMore_of {width left word : Nat} {r : Except Error Nat} (h : c.WellFormed m cap)
    (hok : ¬ m.Fails) (hread : readMore width left word c = (c', r)) (hword : word < 2 ^ width) :
    (∃ bytes, bytes.length = left ∧ m.content.drop c.pos = bytes ++ m.content.drop c'.pos ∧
      r = .ok ((word * 256 ^ left + beNat bytes) % 2 ^ width) ∧
        c'.WellFormed m cap ∧ c'.pos = c.pos + left) ∨
      (∃ e, r = .error e) ∧ (m.content.drop c.pos).length < left := by
  induction left generalizing word c with
  | zero =>
      cases hread
      refine Or.inl ⟨[], rfl, rfl, ?_, h, rfl⟩
      rw [pow_zero, Nat.mul_one, beNat_nil, Nat.add_zero, Nat.mod_eq_of_lt hword]
  | succ left ih =>
      rw [readMore] at hread
      rcases hr8 : c.r8 with ⟨c₁, r₁⟩
      rw [hr8] at hread
      rcases r8_of h hok hr8 with ⟨b, rfl, hdrop, hwf, hpos⟩ | ⟨rfl, hnil⟩
      · rcases ih hwf hread (Nat.mod_lt _ (Nat.two_pow_pos width)) with
          ⟨bytes, hlen, hrest, hr, hwf', hpos'⟩ | ⟨herr, hshort⟩
        · refine Or.inl ⟨b :: bytes, by rw [List.length_cons, hlen], ?_, ?_, hwf', by omega⟩
          · rw [hdrop, hrest, List.cons_append]
          · rw [hr, beNat_cons, hlen, Nat.add_mod, Nat.mul_mod, Nat.mod_mod, ← Nat.mul_mod,
              ← Nat.add_mod, pow_succ']
            congr 2
            ring
        · exact Or.inr ⟨herr, by rw [hdrop, List.length_cons]; omega⟩
      · cases hread
        exact Or.inr ⟨⟨_, rfl⟩, by rw [hnil]; exact Nat.succ_pos left⟩

/-- The header of an element, with the place it was found at. -/
def headerOf (pos : Nat) (found : Nat × Size × Nat) : Header where
  id := found.1
  size := found.2.1
  pos := pos
  dataPos := pos + found.2.2

/-- What a reader of a stream has found. -/
def found? {α : Type} (r : Except Error (Option α)) : Option α :=
  r.toOption.join

theorem vintLen_le {first : BitVec 8} {len : Nat} (h : vintLen first = some len) :
    1 ≤ len ∧ len ≤ 8 := by
  have hall : ∀ first : BitVec 8, ∀ len ∈ vintLen first, 1 ≤ len ∧ len ≤ 8 := by decide +kernel
  exact hall first len h

/-- The size in a stream is the one in memory. -/
theorem readHeaderSize_of {pos : Nat} {r : Except Error (Option Header)}
    (h : c.WellFormed m cap) (hok : ¬ m.Fails)
    (hread : readHeaderSize caps pos id c = (c', r)) :
    (∃ size len, readSize (m.content.drop c.pos) caps.maxSizeLen = .ok (size, len) ∧
      r = .ok (some ⟨id, size, pos, c.pos + len⟩)) ∨
      (∃ e, readSize (m.content.drop c.pos) caps.maxSizeLen = .error e) ∧ ∃ e, r = .error e := by
  rw [readHeaderSize] at hread
  rcases hr8 : c.r8 with ⟨c₁, r₁⟩
  rw [hr8] at hread
  rcases r8_of h hok hr8 with ⟨first, rfl, hdrop, hwf, hpos⟩ | ⟨rfl, hnil⟩
  swap
  · cases hread
    rw [hnil]
    exact Or.inr ⟨⟨_, rfl⟩, _, rfl⟩
  rw [hdrop, readSize]
  dsimp only at hread ⊢
  cases hlen : vintLen first with
  | none =>
      rw [hlen] at hread
      cases hread
      exact Or.inr ⟨⟨_, rfl⟩, _, rfl⟩
  | some len =>
      rcases vintLen_le hlen with ⟨hlo, hhi⟩
      rw [hlen] at hread
      dsimp only at hread ⊢
      by_cases hmax : caps.maxSizeLen < len
      · rw [if_pos hmax] at hread ⊢
        cases hread
        exact Or.inr ⟨⟨_, rfl⟩, _, rfl⟩
      rw [if_neg hmax] at hread ⊢
      rcases hmore : readMore 64 (len - 1) (first &&& ~~~ marker len).toNat c₁ with ⟨c₂, r₂⟩
      rw [hmore] at hread
      rcases readMore_of hwf hok hmore ((BitVec.isLt _).trans (by decide)) with
        ⟨bytes, hbytes, hrest, rfl, -, hpos'⟩ | ⟨⟨e, rfl⟩, hshort⟩
      · have hvalue : ((first &&& ~~~ marker len).toNat * 256 ^ (len - 1) + beNat bytes) % 2 ^ 64 =
            beNat ((first &&& ~~~ marker len) :: bytes) := by
          rw [beNat_cons, hbytes, Nat.mod_eq_of_lt]
          have hlt := beNat_lt ((first &&& ~~~ marker len) :: bytes)
          rw [beNat_cons, List.length_cons, hbytes] at hlt
          exact hlt.trans_le (Nat.pow_le_pow_right (by decide) (by omega : len - 1 + 1 ≤ 8))
        rw [if_neg (by rw [hrest, List.length_cons, List.length_append]; omega), hrest,
          List.take_left' hbytes]
        cases hread
        rw [hvalue, hpos', hpos]
        exact Or.inl ⟨_, _, rfl, by rw [sizeOf, show c.pos + 1 + (len - 1) = c.pos + len by omega]⟩
      · rw [if_pos (by rw [List.length_cons]; omega)]
        cases hread
        exact Or.inr ⟨⟨_, rfl⟩, _, rfl⟩

/-- The header read from a stream is the one in memory at that place; none is read at the end of the
stream only. -/
theorem readHeader_spec {r : Except Error (Option Header)} (h : c.WellFormed m cap)
    (hok : ¬ m.Fails) (hread : readHeader caps c = (c', r)) :
    found? r = (headerAt caps (m.content.drop c.pos)).map (headerOf c.pos) ∧
      (r = .ok none ↔ m.content.length ≤ c.pos) := by
  rw [readHeader] at hread
  rcases hr8 : c.r8 with ⟨c₁, r₁⟩
  rw [hr8] at hread
  rcases r8_of h hok hr8 with ⟨first, rfl, hdrop, hwf, hpos⟩ | ⟨rfl, hnil⟩
  swap
  · cases hread
    rw [hnil]
    exact ⟨rfl, fun _ => List.drop_eq_nil_iff.mp hnil, fun _ => rfl⟩
  have hlt : ¬ m.content.length ≤ c.pos := by
    intro hle
    rw [List.drop_eq_nil_of_le hle] at hdrop
    cases hdrop
  rw [headerAt, hdrop, readId]
  dsimp only at hread ⊢
  cases hlen : vintLen first with
  | none =>
      rw [hlen] at hread
      cases hread
      exact ⟨rfl, (fun h => by cases h), fun hle => absurd hle hlt⟩
  | some len =>
      rcases vintLen_le hlen with ⟨hlo, hhi⟩
      rw [hlen] at hread
      dsimp only at hread ⊢
      by_cases hmax : caps.maxIdLen < len
      · rw [if_pos hmax] at hread ⊢
        cases hread
        exact ⟨rfl, (fun h => by cases h), fun hle => absurd hle hlt⟩
      rw [if_neg hmax] at hread ⊢
      rcases hmore : readMore 32 (len - 1) first.toNat c₁ with ⟨c₂, r₂⟩
      rw [hmore] at hread
      rcases readMore_of hwf hok hmore ((BitVec.isLt _).trans (by decide)) with
        ⟨bytes, hbytes, hrest, rfl, hwf', hpos'⟩ | ⟨⟨e, rfl⟩, hshort⟩
      · have htake : (first :: (bytes ++ m.content.drop c₂.pos)).take len = first :: bytes := by
          rw [← List.cons_append, List.take_left' (by rw [List.length_cons]; omega)]
        have hdrop' : (first :: (bytes ++ m.content.drop c₂.pos)).drop len =
            m.content.drop c₂.pos := by
          rw [← List.cons_append, List.drop_left' (by rw [List.length_cons]; omega)]
        rw [if_neg (by rw [hrest, List.length_cons, List.length_append]; omega), hrest, htake,
          beNat_cons, hbytes]
        dsimp only
        rw [hdrop']
        rcases readHeaderSize_of hwf' hok hread with
          ⟨size, sizeLen, hsize, rfl⟩ | ⟨⟨e, hsize⟩, e', rfl⟩
        · rw [hsize, hpos', hpos, show c.pos + 1 + (len - 1) = c.pos + len by omega, Nat.add_assoc]
          exact ⟨rfl, (fun h => by cases h), fun hle => absurd hle hlt⟩
        · rw [hsize]
          exact ⟨rfl, (fun h => by cases h), fun hle => absurd hle hlt⟩
      · rw [if_pos (by rw [List.length_cons]; omega)]
        cases hread
        exact ⟨rfl, (fun h => by cases h), fun hle => absurd hle hlt⟩

/-- A header is read up to its data. -/
theorem readHeader_moves {header : Header} (h : c.WellFormed m cap) (hok : ¬ m.Fails)
    (hread : readHeader caps c = (c', .ok (some header))) :
    c'.WellFormed m cap ∧ c'.pos = header.dataPos := by
  have hsize : ∀ {pos id : Nat} {c : IoContext}, c.WellFormed m cap →
      readHeaderSize caps pos id c = (c', .ok (some header)) →
        c'.WellFormed m cap ∧ c'.pos = header.dataPos := by
    intro pos id c h hread
    rw [readHeaderSize] at hread
    rcases hr8 : c.r8 with ⟨c₁, r₁⟩
    rw [hr8] at hread
    rcases r8_of h hok hr8 with ⟨first, rfl, -, hwf, -⟩ | ⟨rfl, -⟩
    · dsimp only at hread
      split at hread
      · cases hread
      · split at hread
        · cases hread
        · rename_i len _ _
          rcases hmore : readMore 64 (len - 1) (first &&& ~~~ marker len).toNat c₁ with ⟨c₂, r₂⟩
          rw [hmore] at hread
          rcases readMore_of hwf hok hmore ((BitVec.isLt _).trans (by decide)) with
            ⟨bytes, -, -, rfl, hwf', -⟩ | ⟨⟨e, rfl⟩, -⟩
          · cases hread
            exact ⟨hwf', rfl⟩
          · cases hread
    · cases hread
  rw [readHeader] at hread
  rcases hr8 : c.r8 with ⟨c₁, r₁⟩
  rw [hr8] at hread
  rcases r8_of h hok hr8 with ⟨first, rfl, -, hwf, -⟩ | ⟨rfl, -⟩
  · dsimp only at hread
    split at hread
    · cases hread
    · split at hread
      · cases hread
      · rename_i len _ _
        rcases hmore : readMore 32 (len - 1) first.toNat c₁ with ⟨c₂, r₂⟩
        rw [hmore] at hread
        rcases readMore_of hwf hok hmore ((BitVec.isLt _).trans (by decide)) with
          ⟨bytes, -, -, rfl, hwf', -⟩ | ⟨⟨e, rfl⟩, -⟩
        · exact hsize hwf' hread
        · cases hread
  · cases hread

theorem readHeader_element (h : c.WellFormed m cap) (hok : ¬ m.Fails) (hid : ValidId id)
    (hbody : body.length < 2 ^ 56 - 1) (hmaxId : 4 ≤ caps.maxIdLen) (hmaxSize : 8 ≤ caps.maxSizeLen)
    (hrest : m.content.drop c.pos = element id body ++ rest) :
    ∃ c', readHeader caps c = (c', .ok (some ⟨id, .known body.length, c.pos, c'.pos⟩)) ∧
      c'.WellFormed m cap ∧ m.content.drop c'.pos = body ++ rest := by
  rcases hread : readHeader caps c with ⟨c', r⟩
  have hfound := (readHeader_spec h hok hread).1
  rw [hrest, headerAt_element hid hbody hmaxId hmaxSize] at hfound
  rcases r with e | - | header
  · cases hfound
  · cases hfound
  · rcases readHeader_moves h hok hread with ⟨hwf, hpos⟩
    cases Option.some.inj hfound
    refine ⟨c', by rw [hpos]; rfl, hwf, ?_⟩
    rw [hpos, headerOf, ← List.drop_drop, hrest, element, ← List.length_append, List.append_assoc,
      List.drop_left]

/-- The other reader finds in the stream what the walker finds in a part of it, or nothing where it
stops. -/
theorem readHeader_next {r : Except Error (Option Header)} {before data after : Bytes} {pos : Nat}
    (h : c.WellFormed m cap) (hok : ¬ m.Fails) (hread : readHeader caps c = (c', r))
    (hcontent : m.content = before ++ (data ++ after)) (hpos : c.pos = before.length + pos) :
    (∀ child stop, next caps data pos = some (child, stop) →
      ∃ size, r = .ok (some ⟨child.id, size, before.length + child.offset,
          before.length + child.dataOffset⟩) ∧
        child.data = (data.drop child.dataOffset).take
          (size.clamp (data.drop child.dataOffset))) ∧
      (after = [] → next caps data pos = none →
        found? r = none ∧ (r = .ok none ↔ data.length ≤ pos)) := by
  rcases readHeader_spec h hok hread with ⟨hfound, hend⟩
  rw [hcontent, hpos, ← List.drop_drop, List.drop_left] at hfound
  constructor
  · intro child stop hnext
    rw [next] at hnext
    cases hhead : headerAt caps (data.drop pos) with
    | none =>
        rw [hhead] at hnext
        cases hnext
    | some found =>
        rw [hhead] at hnext
        cases hnext
        have hle : pos ≤ data.length := by
          by_contra hgt
          rw [List.drop_eq_nil_of_le (by omega)] at hhead
          cases hhead
        rw [List.drop_append_of_le_length hle, headerAt_append hhead, Option.map_some] at hfound
        cases r with
        | error e => cases hfound
        | ok header =>
            refine ⟨found.2.1, ?_, rfl⟩
            cases header with
            | none => cases hfound
            | some header =>
                cases hfound
                rw [← Nat.add_assoc]
                rfl
  · rintro rfl hnext
    rw [next] at hnext
    rw [List.append_nil] at hcontent hfound
    cases hhead : headerAt caps (data.drop pos) with
    | some found =>
        rw [hhead] at hnext
        cases hnext
    | none =>
        rw [hhead] at hfound
        refine ⟨hfound, hend.trans ?_⟩
        rw [hcontent, hpos, List.length_append]
        omega

/-! ## The round trip -/

theorem readSize_vintUnknown (len : Nat) :
    readSize (vintUnknown len) MAX_SIZE_LEN = .ok (.unknown, max 1 (min len 8)) := by
  have hn : max 1 (min len 8) - 1 < 8 := by omega
  have hx : allOnes (max 1 (min len 8) - 1 + 1) < 2 ^ (7 * (max 1 (min len 8) - 1 + 1)) := by
    rw [allOnes_eq hn]
    have hpow := Nat.two_pow_pos (7 * (max 1 (min len 8) - 1 + 1))
    omega
  have hread : readSize (_ ++ []) MAX_SIZE_LEN = _ :=
    readSize_vint hn hx (by rw [MAX_SIZE_LEN]; omega)
  rwa [if_pos rfl, List.append_nil, Nat.sub_add_cancel (le_max_left _ _)] at hread

/-- Written elements are walked with their data and places at every level, sizes and deltas are read
back, and a stream gives the headers that the walker finds. -/
theorem elements_round_trip :
    (∀ (caps : Caps) (elements : List Element), 4 ≤ caps.maxIdLen → 8 ≤ caps.maxSizeLen →
      AllValid elements →
        children caps (encodeAll elements) = expected 0 elements ∧ AllWalked caps elements) ∧
    (∀ x < 2 ^ 56 - 1, ∀ rest,
      readSize (vintMin x ++ rest) MAX_SIZE_LEN = .ok (.known x, (vintMin x).length) ∧
        ∀ len, vintMin x ≠ vintUnknown len) ∧
    (∀ value : Int, -(2 ^ 55 - 1) ≤ value → value ≤ 2 ^ 55 - 1 → ∀ rest,
      readSignedVint (signedVint value ++ rest) = .ok (value, (signedVint value).length) ∧
        ∀ len, signedVint value ≠ vintUnknown len) ∧
    ∀ (m : Medium) (cap : Nat) (caps : Caps) (c c' : IoContext) (r : Except Error (Option Header))
      (before data after : Bytes) (pos : Nat), c.WellFormed m cap → ¬ m.Fails →
      readHeader caps c = (c', r) → m.content = before ++ (data ++ after) →
      c.pos = before.length + pos →
        (∀ child stop, next caps data pos = some (child, stop) →
          ∃ size, r = .ok (some ⟨child.id, size, before.length + child.offset,
              before.length + child.dataOffset⟩) ∧
            child.data = (data.drop child.dataOffset).take
              (size.clamp (data.drop child.dataOffset))) ∧
        (after = [] → next caps data pos = none →
          found? r = none ∧ (r = .ok none ↔ data.length ≤ pos)) := by
  refine ⟨?_, ?_, ?_, ?_⟩
  · intro caps elements hmaxId hmaxSize h
    exact ⟨children_encodeAll elements h hmaxId hmaxSize,
      allWalked_of_allValid hmaxId hmaxSize elements h⟩
  · intro x hx rest
    refine ⟨readSize_vintMin hx le_maxSizeLen, fun len heq => ?_⟩
    have hread : readSize (vintMin x ++ []) MAX_SIZE_LEN = _ :=
      readSize_vintMin hx le_maxSizeLen
    rw [List.append_nil, heq, readSize_vintUnknown] at hread
    cases hread
  · intro value hlo hhi rest
    refine ⟨readSignedVint_signedVint hlo hhi, fun len heq => ?_⟩
    have hread : readSignedVint (signedVint value ++ []) = _ :=
      readSignedVint_signedVint hlo hhi
    rw [List.append_nil, heq, readSignedVint, readSize_vintUnknown] at hread
    cases hread
  · intro m cap caps c c' r before data after pos h hok hread hcontent hpos
    exact readHeader_next h hok hread hcontent hpos

/-- An element that holds two others, and a delta below zero. -/
theorem elements_round_trip_nested :
    children .default (encodeAll [.master 0x1F43B675 [.leaf 0xE7 [7], .leaf 0xA3 []],
        .leaf 0x4286 [1]]) =
      [⟨0x1F43B675, [0xE7, 0x81, 7, 0xA3, 0x80], 0, 5⟩, ⟨0x4286, [1], 10, 13⟩] ∧
      readSignedVint (signedVint (-70) ++ [9]) = .ok (-70, 2) := by
  rcases elements_round_trip with ⟨helements, -, hsigned, -⟩
  have hvalid : AllValid [.master 0x1F43B675 [.leaf 0xE7 [7], .leaf 0xA3 []], .leaf 0x4286 [1]] := by
    exact ⟨⟨by decide, by decide +kernel, ⟨by decide, by decide⟩, ⟨by decide, by decide⟩, trivial⟩,
      ⟨by decide, by decide⟩, trivial⟩
  exact ⟨(helements .default _ (by decide) (by decide) hvalid).1,
    (hsigned (-70) (by decide) (by decide) [9]).1⟩

end Ebml
end Vaco
