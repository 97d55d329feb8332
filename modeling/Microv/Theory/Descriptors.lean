import Mathlib.Tactic.Ring
import Microv.Lib.BitFields
import Microv.Core.Gdt

/-!
# Three Encodings of a Segment

A segment is written down three times: as the packed structure of the boot
descriptor table, as the 64-bit word whose formula stands in a comment of
`_test_gdt`, and as the segment register KVM is given. Base and limit are
scattered over the word, and the flags are sliced differently each time.

`descWord` is the word as a sum of its fields, each in its place. The packed
bytes spell it, the formula computes it, and the layout of a descriptor takes
it apart again, so the three meet there and each step is linear arithmetic.

## Main definitions

* `gdtWord`: The documented formula.
* `gdtWordBase`, `gdtWordLimit`, `gdtWordFlags`: Its documented inverses.
* `X86Descriptor`, `x86Decode`: The layout of a descriptor.
* `descWord`: The word as a sum of fields.

## Theorems

* `leValue_desc`: The packed bytes spell the word.
* `gdtWord_eq`: The formula computes the word.
* `segment_encodings_agree`: All three encodings agree.
-/

namespace Microv

section Documented

/-- The word of a descriptor, as `_test_gdt` documents it. -/
def gdtWord (flags base limit : UInt64) : UInt64 :=
  ((base &&& (0xff000000 : UInt64)) <<< (56 - 24)) ||| ((base &&& (0x00ffffff : UInt64)) <<< 16) |||
    ((limit &&& (0x000f0000 : UInt64)) <<< (48 - 16)) ||| (limit &&& (0x0000ffff : UInt64)) |||
    ((flags &&& (0x0000f0ff : UInt64)) <<< 40)

-- The three inverses documented beside it.
def gdtWordBase (entry : UInt64) : UInt64 :=
  ((entry >>> 16) &&& (0x00ffffff : UInt64)) ||| ((entry >>> (56 - 24)) &&& (0xff000000 : UInt64))

def gdtWordLimit (entry : UInt64) : UInt64 :=
  ((entry >>> (48 - 16)) &&& (0x000f0000 : UInt64)) ||| (entry &&& (0x0000ffff : UInt64))

def gdtWordFlags (entry : UInt64) : UInt64 :=
  (entry >>> 40) &&& (0x0000f0ff : UInt64)

end Documented

section Layout

/-- What the processor reads in a descriptor; the limit is the raw one. -/
structure X86Descriptor where
  base : Nat
  limit : Nat
  type : Nat
  s : Nat
  dpl : Nat
  present : Nat
  avl : Nat
  l : Nat
  db : Nat
  g : Nat
  deriving DecidableEq, Repr

/-- The layout of a descriptor. -/
def x86Decode (w : Nat) : X86Descriptor :=
  { base := bits w 16 24 + bits w 56 8 * 2 ^ 24,
    limit := bits w 0 16 + bits w 48 4 * 2 ^ 16,
    type := bits w 40 4,
    s := bits w 44 1,
    dpl := bits w 45 2,
    present := bits w 47 1,
    avl := bits w 52 1,
    l := bits w 53 1,
    db := bits w 54 1,
    g := bits w 55 1 }

/-- What KVM is told of a segment. -/
def KvmSegment.descriptor (seg : KvmSegment) : X86Descriptor :=
  { base := seg.base.toNat, limit := seg.limit.toNat, type := seg.type.toNat, s := seg.s.toNat,
    dpl := seg.dpl.toNat, present := seg.present.toNat, avl := seg.avl.toNat, l := seg.l.toNat,
    db := seg.db.toNat, g := seg.g.toNat }

/-- The word as a sum of its fields, each in its place. -/
def descWord (flags base limit : Nat) : Nat :=
  bits limit 0 16 + bits base 0 24 * 2 ^ 16 + bits flags 0 8 * 2 ^ 40 + bits limit 16 4 * 2 ^ 48 +
    bits flags 12 4 * 2 ^ 52 + bits base 24 8 * 2 ^ 56

/-- The word taken apart. -/
structure WordFields (w flags base limit : Nat) : Prop where
  limit0 : bits w 0 16 = bits limit 0 16
  base01 : bits w 16 24 = bits base 0 24
  access : bits w 40 8 = bits flags 0 8
  limit1 : bits w 48 4 = bits limit 16 4
  attr : bits w 52 4 = bits flags 12 4
  base2 : bits w 56 8 = bits base 24 8

/-- Fields that keep to their places are found there. -/
theorem bits_of_sum {w l0 b1 fl l1 fh b2 : Nat} (hl0 : l0 < 2 ^ 16) (hb1 : b1 < 2 ^ 24)
    (hfl : fl < 2 ^ 8) (hl1 : l1 < 2 ^ 4) (hfh : fh < 2 ^ 4) (hb2 : b2 < 2 ^ 8)
    (hw : w = l0 + b1 * 2 ^ 16 + fl * 2 ^ 40 + l1 * 2 ^ 48 + fh * 2 ^ 52 + b2 * 2 ^ 56) :
    bits w 0 16 = l0 ∧ bits w 16 24 = b1 ∧ bits w 40 8 = fl ∧ bits w 48 4 = l1 ∧
    bits w 52 4 = fh ∧ bits w 56 8 = b2 := by
  unfold bits
  refine ⟨?_, ?_, ?_, ?_, ?_, ?_⟩
  all_goals omega

theorem wordFields_descWord (flags base limit : Nat) :
    WordFields (descWord flags base limit) flags base limit := by
  rcases bits_of_sum (bits_lt limit 0 16) (bits_lt base 0 24) (bits_lt flags 0 8)
    (bits_lt limit 16 4) (bits_lt flags 12 4) (bits_lt base 24 8) (w := descWord flags base limit)
    rfl with ⟨h1, h2, h3, h4, h5, h6⟩
  exact ⟨h1, h2, h3, h4, h5, h6⟩

end Layout

/-- The four words of the structure, as one. -/
theorem join_words {l0 b0 b1 fl l1 fh b2 : Nat} (hl0 : l0 < 2 ^ 16) (hb0 : b0 < 2 ^ 16)
    (hb1 : b1 < 2 ^ 8) (hfl : fl < 2 ^ 8) (hl1 : l1 < 2 ^ 4) (hfh : fh < 2 ^ 4) (hb2 : b2 < 2 ^ 8) :
    l0 % 256 ^ 2 + 256 ^ 2 * (b0 % 256 ^ 2 + 256 ^ 2 * ((b1 + fl * 2 ^ 8) % 256 ^ 2 +
      256 ^ 2 * ((l1 + fh * 2 ^ 4 + b2 * 2 ^ 8) % 256 ^ 2 + 256 ^ 2 * 0)))
      = l0 + (b0 + b1 * 2 ^ 16) * 2 ^ 16 + fl * 2 ^ 40 + l1 * 2 ^ 48 + fh * 2 ^ 52
        + b2 * 2 ^ 56 := by
  rw [Nat.mod_eq_of_lt (by omega), Nat.mod_eq_of_lt (by omega), Nat.mod_eq_of_lt (by omega),
    Nat.mod_eq_of_lt (by omega)]
  omega

/-- The packed bytes spell the word. -/
theorem leValue_desc (flags base limit : Nat) :
    ByteMem.leValue (gdtEntryInit flags base limit).bytes = descWord flags base limit := by
  -- The third and the fourth word of the structure, with neighbouring fields joined.
  have haccess : flags % 2 ^ 4 + flags / 2 ^ 4 % 2 * 2 ^ 4 + flags / 2 ^ 5 % 2 ^ 2 * 2 ^ 5
      + flags / 2 ^ 7 % 2 * 2 ^ 7 = bits flags 0 8 := by
    rw [← bits_add flags 0 7 1, ← bits_add flags 0 5 2, ← bits_add flags 0 4 1]
    simp only [bits, Nat.pow_zero, Nat.div_one, Nat.zero_add, Nat.pow_one]
  have hattr : flags / 2 ^ 12 % 2 + flags / 2 ^ 13 % 2 * 2 + flags / 2 ^ 14 % 2 * 2 ^ 2
      + flags / 2 ^ 15 % 2 * 2 ^ 3 = bits flags 12 4 := by
    rw [← bits_add flags 12 3 1, ← bits_add flags 12 2 1, ← bits_add flags 12 1 1]
    simp only [bits, Nat.pow_one, Nat.reduceAdd]
  have hthird : base / 2 ^ 16 % 2 ^ 8 + flags % 2 ^ 4 * 2 ^ 8 + flags / 2 ^ 4 % 2 * 2 ^ 12
      + flags / 2 ^ 5 % 2 ^ 2 * 2 ^ 13 + flags / 2 ^ 7 % 2 * 2 ^ 15
      = bits base 16 8 + bits flags 0 8 * 2 ^ 8 := by
    rw [← haccess, bits]
    ring
  have hfourth : limit / 2 ^ 16 % 2 ^ 4 + flags / 2 ^ 12 % 2 * 2 ^ 4 + flags / 2 ^ 13 % 2 * 2 ^ 5
      + flags / 2 ^ 14 % 2 * 2 ^ 6 + flags / 2 ^ 15 % 2 * 2 ^ 7 + base / 2 ^ 24 % 2 ^ 8 * 2 ^ 8
      = bits limit 16 4 + bits flags 12 4 * 2 ^ 4 + bits base 24 8 * 2 ^ 8 := by
    rw [← hattr, bits, bits]
    ring
  have hfirst : ∀ x, x % 2 ^ 16 = bits x 0 16 := by
    intro x
    rw [bits, Nat.pow_zero, Nat.div_one]
  unfold DescStruct.bytes
  rw [List.append_assoc, List.append_assoc, ByteMem.leValue_leBytes_append,
    ByteMem.leValue_leBytes_append, ByteMem.leValue_leBytes_append,
    ← List.append_nil (ByteMem.leBytes 2 _), ByteMem.leValue_leBytes_append]
  simp only [gdtEntryInit, ByteMem.leValue, hthird, hfourth, hfirst]
  rw [join_words (bits_lt _ _ _) (bits_lt _ _ _) (bits_lt _ _ _) (bits_lt _ _ _) (bits_lt _ _ _)
    (bits_lt _ _ _) (bits_lt _ _ _), descWord, ← bits_add base 0 16 8]

section Formula

/-- A shift that loses nothing is a multiplication. -/
theorem toNat_shiftLeft_of_lt (y s : UInt64) (k p : Nat) (hs : s.toNat = k) (hy : y.toNat < 2 ^ p)
    (hk : k < 64) (hkp : p + k ≤ 64) : (y <<< s).toNat = y.toNat * 2 ^ k := by
  have hlt : y.toNat * 2 ^ k < 2 ^ 64 :=
    calc y.toNat * 2 ^ k
        < 2 ^ p * 2 ^ k := Nat.mul_lt_mul_of_pos_right hy (Nat.two_pow_pos _)
      _ = 2 ^ (p + k) := (Nat.pow_add 2 p k).symm
      _ ≤ 2 ^ 64 := Nat.pow_le_pow_right (by decide) hkp
  rw [UInt64.toNat_shiftLeft, hs, Nat.mod_eq_of_lt hk, Nat.shiftLeft_eq, Nat.mod_eq_of_lt hlt]

theorem toNat_and_mask (x mask : UInt64) (i n : Nat) (hmask : mask.toNat = (2 ^ n - 1) * 2 ^ i) :
    (x &&& mask).toNat = bits x.toNat i n * 2 ^ i := by
  rw [UInt64.toNat_and, hmask, and_mask]

/-- The mask of the flags leaves out the four bits of the limit. -/
theorem and_flags_mask (x : Nat) : x &&& 0xf0ff = bits x 12 4 * 2 ^ 12 + bits x 0 8 := by
  have hmask : (0xf0ff : Nat) = (2 ^ 4 - 1) * 2 ^ 12 ||| (2 ^ 8 - 1) * 2 ^ 0 := by decide
  have hlow : bits x 0 8 * 2 ^ 0 < 2 ^ 12 := by
    have := bits_lt x 0 8
    omega
  rw [hmask, Nat.and_or_distrib_left, and_mask, and_mask, or_eq_add _ hlow, Nat.pow_zero,
    Nat.mul_one]

/-- The parts of the formula do not overlap. -/
theorem join_fields {b2 b1 l1 l0 fh fl : Nat} (hl0 : l0 < 2 ^ 16) (hb1 : b1 < 2 ^ 24)
    (hfl : fl < 2 ^ 8) (hl1 : l1 < 2 ^ 4) (hfh : fh < 2 ^ 4) :
    b2 * 2 ^ 56 ||| b1 * 2 ^ 16 ||| l1 * 2 ^ 48 ||| l0 ||| (fh * 2 ^ 52 + fl * 2 ^ 40)
      = l0 + b1 * 2 ^ 16 + fl * 2 ^ 40 + l1 * 2 ^ 48 + fh * 2 ^ 52 + b2 * 2 ^ 56 := by
  -- In the order of their places each is above all that follow.
  have horder : b2 * 2 ^ 56 ||| b1 * 2 ^ 16 ||| l1 * 2 ^ 48 ||| l0 ||| (fh * 2 ^ 52 ||| fl * 2 ^ 40)
      = b2 * 2 ^ 56 ||| (fh * 2 ^ 52 ||| (l1 * 2 ^ 48 ||| (fl * 2 ^ 40 |||
        (b1 * 2 ^ 16 ||| l0)))) := by
    ac_rfl
  rw [← or_eq_add fh (show fl * 2 ^ 40 < 2 ^ 52 by omega), horder, or_eq_add b1 hl0,
    or_eq_add fl (by omega), or_eq_add l1 (by omega), or_eq_add fh (by omega),
    or_eq_add b2 (by omega)]
  omega

/-- The formula computes the word. -/
theorem gdtWord_eq (flags base limit : UInt64) :
    (gdtWord flags base limit).toNat = descWord flags.toNat base.toNat limit.toNat := by
  have hb2 := toNat_and_mask base 0xff000000 24 8 (by decide)
  have hb1 := toNat_and_mask base 0x00ffffff 0 24 (by decide)
  have hl1 := toNat_and_mask limit 0x000f0000 16 4 (by decide)
  have hl0 := toNat_and_mask limit 0x0000ffff 0 16 (by decide)
  have hf : (flags &&& 0x0000f0ff).toNat
      = bits flags.toNat 12 4 * 2 ^ 12 + bits flags.toNat 0 8 := and_flags_mask flags.toNat
  have b2 := bits_lt base.toNat 24 8
  have b1 := bits_lt base.toNat 0 24
  have l1 := bits_lt limit.toNat 16 4
  have l0 := bits_lt limit.toNat 0 16
  have fh := bits_lt flags.toNat 12 4
  have fl := bits_lt flags.toNat 0 8
  unfold gdtWord
  rw [UInt64.toNat_or, UInt64.toNat_or, UInt64.toNat_or, UInt64.toNat_or,
    toNat_shiftLeft_of_lt _ (56 - 24) 32 32 rfl (by omega) (by decide) (by decide),
    toNat_shiftLeft_of_lt _ 16 16 24 rfl (by omega) (by decide) (by decide),
    toNat_shiftLeft_of_lt _ (48 - 16) 32 20 rfl (by omega) (by decide) (by decide),
    toNat_shiftLeft_of_lt _ 40 40 16 rfl (by omega) (by decide) (by decide), hb2, hb1, hl1, hl0, hf,
    Nat.add_mul]
  simp only [Nat.mul_assoc, ← Nat.pow_add, Nat.reduceAdd, Nat.pow_zero, Nat.mul_one]
  exact join_fields l0 b1 fl l1 fh

/-- The low bits of a word, in a byte. -/
theorem toNat_low_byte (x mask : UInt64) (n : Nat) (hmask : mask.toNat = 2 ^ n - 1) (hn : n ≤ 8) :
    (x &&& mask).toUInt8.toNat = bits x.toNat 0 n := by
  have hlt : bits x.toNat 0 n < 2 ^ 8 :=
    Nat.lt_of_lt_of_le (bits_lt _ _ _) (Nat.pow_le_pow_right (by decide) hn)
  rw [UInt64.toNat_toUInt8, UInt64.toNat_and, hmask, Nat.and_two_pow_sub_one_eq_mod]
  rw [bits, Nat.pow_zero, Nat.div_one] at hlt ⊢
  exact Nat.mod_eq_of_lt hlt

/-- A slice of the flags, as `entry_to_kvm_seg` takes it. -/
theorem toNat_flag (flags mask k : UInt64) (i n : Nat) (hk : k.toNat % 64 = i)
    (hmask : mask.toNat = 2 ^ n - 1) (hn : n ≤ 8) :
    ((flags >>> k) &&& mask).toUInt8.toNat = bits flags.toNat i n := by
  rw [toNat_low_byte _ mask n hmask hn, UInt64.toNat_shiftRight, bits_shiftRight, hk, Nat.add_zero]

end Formula

section Inverse

variable {flags base limit w : UInt64}
  (hw : WordFields w.toNat flags.toNat base.toNat limit.toNat)

include hw

theorem gdtWordBase_eq (hbase : base.toNat < 2 ^ 32) : gdtWordBase w = base := by
  have hlow := toNat_and_mask (w >>> 16) 0x00ffffff 0 24 (by decide)
  have hhigh := toNat_and_mask (w >>> (56 - 24)) 0xff000000 24 8 (by decide)
  rw [UInt64.toNat_shiftRight, bits_shiftRight] at hlow hhigh
  have hlow' := hlow.trans (congrArg (· * 2 ^ 0) hw.base01)
  have hhigh' := hhigh.trans (congrArg (· * 2 ^ 24) hw.base2)
  have hlt := bits_lt base.toNat 0 24
  apply UInt64.toNat.inj
  rw [gdtWordBase, UInt64.toNat_or, Nat.or_comm, hlow', hhigh', Nat.pow_zero, Nat.mul_one,
    or_eq_add _ hlt, Nat.add_comm]
  exact (bits_add base.toNat 0 24 8).trans (bits_eq_self hbase)

theorem gdtWordLimit_eq (hlimit : limit.toNat < 2 ^ 20) : gdtWordLimit w = limit := by
  have hlow := toNat_and_mask w 0x0000ffff 0 16 (by decide)
  have hhigh := toNat_and_mask (w >>> (48 - 16)) 0x000f0000 16 4 (by decide)
  rw [UInt64.toNat_shiftRight, bits_shiftRight] at hhigh
  have hhigh' := hhigh.trans (congrArg (· * 2 ^ 16) hw.limit1)
  have hlt := bits_lt limit.toNat 0 16
  apply UInt64.toNat.inj
  rw [gdtWordLimit, UInt64.toNat_or, hlow, hw.limit0, hhigh', Nat.pow_zero, Nat.mul_one,
    or_eq_add _ hlt, Nat.add_comm]
  exact (bits_add limit.toNat 0 16 4).trans (bits_eq_self hlimit)

theorem gdtWordFlags_eq : gdtWordFlags w = flags &&& 0x0000f0ff := by
  have hshift : (w >>> 40).toNat &&& 0xf0ff = _ := and_flags_mask _
  rw [UInt64.toNat_shiftRight, bits_shiftRight, bits_shiftRight] at hshift
  have hflags : flags.toNat &&& 0xf0ff = _ := and_flags_mask _
  apply UInt64.toNat.inj
  rw [gdtWordFlags, UInt64.toNat_and, UInt64.toNat_and, UInt64.toNat_shiftRight]
  refine hshift.trans (Eq.trans ?_ hflags.symm)
  exact congrArg₂ (fun a b => a * 2 ^ 12 + b) hw.attr hw.access

end Inverse

section Decode

variable {flags base limit w : UInt64}
  (hw : WordFields w.toNat flags.toNat base.toNat limit.toNat)

include hw

/-- A slice of the eight low flags, where the word has it. -/
theorem bits_access {j m : Nat} (h : j + m ≤ 8) :
    bits w.toNat (40 + j) m = bits flags.toNat j m := by
  rw [← bits_bits _ 40 h, hw.access, bits_bits _ 0 h, Nat.zero_add]

/-- A slice of the four high flags, where the word has it. -/
theorem bits_attr {j m : Nat} (h : j + m ≤ 4) :
    bits w.toNat (52 + j) m = bits flags.toNat (12 + j) m := by
  rw [← bits_bits _ 52 h, hw.attr, bits_bits _ 12 h]

/-- The processor finds in the word what KVM is told of the segment. -/
theorem x86Decode_eq (hbase : base.toNat < 2 ^ 32) (hlimit : limit.toNat < 2 ^ 20)
    (seg : KvmSegment) :
    x86Decode w.toNat = (entryToKvmSeg seg flags base limit).descriptor := by
  have hb : bits w.toNat 16 24 + bits w.toNat 56 8 * 2 ^ 24 = base.toNat := by
    rw [hw.base01, hw.base2]
    exact (bits_add base.toNat 0 24 8).trans (bits_eq_self hbase)
  have hl : bits w.toNat 0 16 + bits w.toNat 48 4 * 2 ^ 16 = limit.toUInt32.toNat := by
    rw [hw.limit0, hw.limit1, UInt64.toNat_toUInt32, Nat.mod_eq_of_lt (by omega)]
    exact (bits_add limit.toNat 0 16 4).trans (bits_eq_self hlimit)
  unfold x86Decode KvmSegment.descriptor entryToKvmSeg
  simp only [X86Descriptor.mk.injEq]
  refine ⟨hb, hl, ?_, ?_, ?_, ?_, ?_, ?_, ?_, ?_⟩
  · rw [toNat_low_byte flags 0xf 4 (by decide) (by decide)]
    exact bits_access hw (by decide : 0 + 4 ≤ 8)
  · rw [toNat_flag flags 0x1 _ 4 1 (by decide) (by decide) (by decide)]
    exact bits_access hw (by decide : 4 + 1 ≤ 8)
  · rw [toNat_flag flags 0x3 _ 5 2 (by decide) (by decide) (by decide)]
    exact bits_access hw (by decide : 5 + 2 ≤ 8)
  · rw [toNat_flag flags 0x1 _ 7 1 (by decide) (by decide) (by decide)]
    exact bits_access hw (by decide : 7 + 1 ≤ 8)
  · rw [toNat_flag flags 0x1 _ 12 1 (by decide) (by decide) (by decide)]
    exact bits_attr hw (by decide : 0 + 1 ≤ 4)
  · rw [toNat_flag flags 0x1 _ 13 1 (by decide) (by decide) (by decide)]
    exact bits_attr hw (by decide : 1 + 1 ≤ 4)
  · rw [toNat_flag flags 0x1 _ 14 1 (by decide) (by decide) (by decide)]
    exact bits_attr hw (by decide : 2 + 1 ≤ 4)
  · rw [toNat_flag flags 0x1 _ 15 1 (by decide) (by decide) (by decide)]
    exact bits_attr hw (by decide : 3 + 1 ≤ 4)

end Decode

/-- For all flags with bits 8 to 11 clear, every base and every limit, the
    packed bytes spell the documented word, the documented inverses take it
    apart, and the processor finds in it what KVM is told. -/
theorem segment_encodings_agree (flags base limit : UInt64) (hflags : flags.toNat < 2 ^ 16)
    (hclear : flags &&& 0x0f00 = 0) (hbase : base.toNat < 2 ^ 32) (hlimit : limit.toNat < 2 ^ 20) :
    ByteMem.leValue (gdtEntryInit flags.toNat base.toNat limit.toNat).bytes
      = (gdtWord flags base limit).toNat ∧
    gdtWordBase (gdtWord flags base limit) = base ∧
    gdtWordLimit (gdtWord flags base limit) = limit ∧
    gdtWordFlags (gdtWord flags base limit) = flags ∧
    ∀ seg, x86Decode (gdtWord flags base limit).toNat
      = (entryToKvmSeg seg flags base limit).descriptor := by
  have hw : WordFields (gdtWord flags base limit).toNat flags.toNat base.toNat limit.toNat := by
    rw [gdtWord_eq]
    exact wordFields_descWord flags.toNat base.toNat limit.toNat
  refine ⟨?_, gdtWordBase_eq hw hbase, gdtWordLimit_eq hw hlimit, ?_,
    x86Decode_eq hw hbase hlimit⟩
  · rw [leValue_desc, gdtWord_eq]
  · rw [gdtWordFlags_eq hw]
    apply UInt64.toNat.inj
    -- The mask only takes out the bits that are clear.
    have hmid : bits flags.toNat 8 4 = 0 := by
      have h := (toNat_and_mask flags 0x0f00 8 4 (by decide)).symm.trans
        (congrArg UInt64.toNat hclear)
      exact (Nat.mul_eq_zero.mp h).resolve_right (by decide)
    have h12 := bits_add flags.toNat 0 8 4
    have h16 := bits_add flags.toNat 0 12 4
    rw [hmid, Nat.zero_mul, Nat.add_zero] at h12
    rw [UInt64.toNat_and]
    refine (and_flags_mask flags.toNat).trans ?_
    rw [h12, Nat.add_comm]
    exact h16.trans (bits_eq_self hflags)

/-- The flat code segment of the boot table, at another base. -/
theorem segment_encodings_agree_code :
    ByteMem.leValue (gdtEntryInit 0xa09b 0x12345678 0xfffff).bytes = 0x12af9b345678ffff ∧
    gdtWordFlags (gdtWord 0xa09b 0x12345678 0xfffff) = 0xa09b := by
  rcases segment_encodings_agree 0xa09b 0x12345678 0xfffff (by decide) (by decide) (by decide)
    (by decide) with ⟨hword, -, -, hflags, -⟩
  exact ⟨hword.trans (by decide), hflags⟩

end Microv
