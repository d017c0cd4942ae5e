import NetPattern.Masks
import NetPattern.Proofs.Pattern.Canonical

/-!
# Blocks and the bits of their prefixes

The range of a block holds the numbers of the width of its family that agree with its address on the
bits of the prefix, for any two numbers that a block is made of. So two blocks of one family are
disjoint or nested, and masks give the bounds of a range without leaving a word.
-/

namespace NetPattern

namespace Family

theorem size_eq_two_pow (family : Family) : family.size = 2 ^ family.bits :=
  Nat.one_shiftLeft _

theorem bits_le (family : Family) : family.bits ≤ 128 := by
  cases family <;> decide

end Family

namespace Cidr

variable {cidr other : Cidr}

theorem blockSize_eq_two_pow (cidr : Cidr) : cidr.blockSize = 2 ^ cidr.hostBits :=
  Nat.one_shiftLeft _

/-- Whether a number has the width of the family of a block and agrees with the address of the
block on the bits of the prefix, which are those above the host bits. -/
def HasPrefix (cidr : Cidr) (address : Nat) : Prop :=
  address < 2 ^ cidr.family.bits ∧
    ∀ i, cidr.hostBits ≤ i → i < cidr.family.bits →
      address.testBit i = cidr.address.testBit i

/-- The addresses of a block are the numbers with one quotient by its size. -/
theorem range_contains_iff_div {address : Nat} :
    cidr.range.contains address = true ↔
      address / 2 ^ cidr.hostBits =
        cidr.address % 2 ^ cidr.family.bits / 2 ^ cidr.hostBits := by
  have hpos := Nat.two_pow_pos cidr.hostBits
  rw [Range.contains_iff, Nat.div_eq_iff hpos, Nat.add_sub_assoc hpos,
    ← cidr.family.size_eq_two_pow, ← cidr.blockSize_eq_two_pow]
  exact Iff.rfl

end Cidr

/-- Numbers have one quotient by a power of two if they agree on all bits from there on. -/
theorem div_two_pow_eq_iff {m n count : Nat} :
    m / 2 ^ count = n / 2 ^ count ↔ ∀ i, count ≤ i → m.testBit i = n.testBit i := by
  constructor
  · intro h i hi
    have hbit := congrArg (Nat.testBit · (i - count)) h
    simpa only [Nat.testBit_div_two_pow, Nat.add_sub_cancel' hi, Nat.sub_add_cancel hi] using hbit
  · intro h
    apply Nat.eq_of_testBit_eq
    intro i
    rw [Nat.testBit_div_two_pow, Nat.testBit_div_two_pow]
    exact h _ (by omega)

namespace Cidr

variable {cidr other : Cidr}

theorem lt_two_pow_of_contains {address : Nat} (h : cidr.range.contains address = true) :
    address < 2 ^ cidr.family.bits := by
  rw [← Family.size_eq_two_pow]
  exact Range.lt_size_of_contains h

/-- The addresses of a block are the numbers with its prefix. -/
theorem range_contains_iff_hasPrefix {address : Nat} :
    cidr.range.contains address = true ↔ cidr.HasPrefix address := by
  constructor
  · intro h
    refine ⟨lt_two_pow_of_contains h, fun i hhost hbits => ?_⟩
    rw [div_two_pow_eq_iff.mp (range_contains_iff_div.mp h) i hhost, Nat.testBit_mod_two_pow,
      decide_eq_true hbits, Bool.true_and]
  · intro h
    rw [range_contains_iff_div, div_two_pow_eq_iff]
    intro i hhost
    rw [Nat.testBit_mod_two_pow]
    by_cases hbits : i < cidr.family.bits
    · rw [h.2 i hhost hbits, decide_eq_true hbits, Bool.true_and]
    · have hlt : address < 2 ^ i :=
        Nat.lt_of_lt_of_le h.1 (Nat.pow_le_pow_right Nat.two_pos (Nat.le_of_not_lt hbits))
      rw [Nat.testBit_lt_two_pow hlt, decide_eq_false hbits, Bool.false_and]

/-- The address of a block, cut to the width of the family, lies in the block. -/
theorem contains_address (cidr : Cidr) :
    cidr.range.contains (cidr.address % 2 ^ cidr.family.bits) = true :=
  range_contains_iff_div.mpr rfl

/-- A block with a longer prefix lies in every block that holds one of its addresses. -/
theorem contains_of_contains (hbits : other.hostBits ≤ cidr.hostBits) {shared address : Nat}
    (hshared : cidr.range.contains shared = true) (hshared' : other.range.contains shared = true)
    (haddress : other.range.contains address = true) : cidr.range.contains address = true := by
  rw [range_contains_iff_div] at *
  obtain ⟨more, hmore⟩ := Nat.exists_eq_add_of_le hbits
  rw [← hshared, hmore, Nat.pow_add, ← Nat.div_div_eq_div_mul, ← Nat.div_div_eq_div_mul, haddress,
    hshared']

/-- A block with a longer prefix lies in another exactly if its address does. -/
theorem range_subset_iff (hfamily : cidr.family = other.family)
    (hbits : other.hostBits ≤ cidr.hostBits) :
    (∀ address, other.range.contains address = true → cidr.range.contains address = true) ↔
      cidr.range.contains (other.address % 2 ^ cidr.family.bits) = true := by
  have hown := other.contains_address
  rw [← hfamily] at hown
  exact ⟨fun h => h _ hown, fun h _ => contains_of_contains hbits h hown⟩

/-- Of two blocks one lies in the other, or they have no address in common. -/
theorem disjoint_or_nested (cidr other : Cidr) :
    (∀ address, ¬ (cidr.range.contains address = true ∧ other.range.contains address = true)) ∨
      (∀ address, cidr.range.contains address = true → other.range.contains address = true) ∨
      ∀ address, other.range.contains address = true → cidr.range.contains address = true := by
  by_cases hshared : ∃ shared,
      cidr.range.contains shared = true ∧ other.range.contains shared = true
  · obtain ⟨shared, hone, hother⟩ := hshared
    rcases Nat.le_total other.hostBits cidr.hostBits with hbits | hbits
    · exact .inr (.inr fun _ => contains_of_contains hbits hone hother)
    · exact .inr (.inl fun _ => contains_of_contains hbits hother hone)
  · exact .inl fun address haddress => hshared ⟨address, haddress⟩

/-- Bits above the width of the family and a prefix beyond it have no effect. -/
theorem range_of_reduced (family : Family) (address prefixLength : Nat) :
    (⟨family, address % 2 ^ family.bits, min prefixLength family.bits⟩ : Cidr).range =
      (⟨family, address, prefixLength⟩ : Cidr).range := by
  have hbits : (⟨family, address % 2 ^ family.bits, min prefixLength family.bits⟩ : Cidr).hostBits =
      (⟨family, address, prefixLength⟩ : Cidr).hostBits := by
    simp only [hostBits]
    omega
  simp only [range, firstAddress, blockSize, hbits, Family.size_eq_two_pow, Nat.mod_mod]

theorem size_range (cidr : Cidr) : cidr.range.size = min (2 ^ cidr.hostBits) (2 ^ 128 - 1) := by
  have hpos := cidr.blockSize_pos
  have hsize : cidr.range.last - cidr.range.first + 1 = cidr.blockSize := by
    simp only [range]
    omega
  rw [Range.size, hsize, blockSize_eq_two_pow, Range.maxSize, Nat.one_shiftLeft]

end Cidr

namespace Word

theorem toNat_lowBits {count : Nat} (h : count ≤ 128) :
    (BitVec.ofNat 128 (2 ^ count - 1)).toNat = 2 ^ count - 1 := by
  have hle : 2 ^ count ≤ 2 ^ 128 := Nat.pow_le_pow_right (by decide) h
  have hpos := Nat.two_pow_pos count
  rw [BitVec.toNat_ofNat, Nat.mod_eq_of_lt (by omega)]

theorem getLsbD_lowBits {count : Nat} (h : count ≤ 128) (i : Nat) :
    (BitVec.ofNat 128 (2 ^ count - 1)).getLsbD i = decide (i < count) := by
  rw [← BitVec.testBit_toNat, toNat_lowBits h, Nat.testBit_two_pow_sub_one]

theorem toNat_one : (1 : Word).toNat = 1 := rfl

/-- The mask of the low bits is found without leaving the word, also where it is the whole word. -/
theorem hostMask?_eq {bits : Nat} (hbits : bits ≤ 128) (prefixLength : Nat) :
    hostMask? bits prefixLength = some (BitVec.ofNat 128 (2 ^ (bits - prefixLength) - 1)) := by
  have hfree : bits - prefixLength ≤ 128 := by omega
  unfold hostMask?
  generalize bits - prefixLength = free at hfree
  split
  next hwhole =>
    obtain rfl : free = 128 := by omega
    rfl
  next hpart =>
    have hless : free < 128 := Nat.lt_of_not_le hpart
    have hshift : ((1 : Word) <<< free).toNat = 2 ^ free := by
      rw [BitVec.toNat_shiftLeft, toNat_one, Nat.one_shiftLeft,
        Nat.mod_eq_of_lt (Nat.pow_lt_pow_right (by decide) hless)]
    have hle : (1 : Word) ≤ (1 : Word) <<< free := by
      rw [BitVec.le_def, hshift]
      exact Nat.two_pow_pos free
    have hdifference : (1 : Word) <<< free - 1 = BitVec.ofNat 128 (2 ^ free - 1) := by
      apply BitVec.eq_of_toNat_eq
      rw [BitVec.toNat_sub_of_le hle, hshift, toNat_lowBits hfree, toNat_one]
    simp only [shiftLeft?, if_pos hless, Option.bind_eq_bind, Option.bind_some, sub?, if_pos hle,
      hdifference]

/-- Masking away low bits rounds down to a multiple of a power of two. -/
theorem toNat_and_not_and (word : Word) {low count : Nat} (hlow : low ≤ count)
    (hcount : count ≤ 128) :
    (word &&& ~~~BitVec.ofNat 128 (2 ^ low - 1) &&& BitVec.ofNat 128 (2 ^ count - 1)).toNat =
      word.toNat % 2 ^ count / 2 ^ low * 2 ^ low := by
  apply Nat.eq_of_testBit_eq
  intro i
  rw [BitVec.testBit_toNat, BitVec.getLsbD_and, BitVec.getLsbD_and, BitVec.getLsbD_not,
    getLsbD_lowBits hcount, getLsbD_lowBits (by omega), Nat.testBit_mul_two_pow,
    Nat.testBit_div_two_pow, Nat.testBit_mod_two_pow, BitVec.testBit_toNat]
  by_cases hi : low ≤ i
  · rw [Nat.sub_add_cancel hi]
    grind
  · grind

/-- Masks give the bounds of the range of a block. -/
theorem bounds?_eq (family : Family) (address : Word) (prefixLength : Nat) :
    ∃ first last, bounds? family address prefixLength = some (first, last) ∧
      first.toNat = (⟨family, address.toNat, prefixLength⟩ : Cidr).range.first ∧
      last.toNat = (⟨family, address.toNat, prefixLength⟩ : Cidr).range.last := by
  have hbits := family.bits_le
  have hpos := Nat.two_pow_pos (family.bits - prefixLength)
  let host := BitVec.ofNat 128 (2 ^ (family.bits - prefixLength) - 1)
  let first := address &&& ~~~host &&& BitVec.ofNat 128 (2 ^ family.bits - 1)
  have hfirst : first.toNat = (⟨family, address.toNat, prefixLength⟩ : Cidr).range.first := by
    simp only [Cidr.range, Cidr.firstAddress, Cidr.blockSize_eq_two_pow, Cidr.hostBits,
      Family.size_eq_two_pow]
    exact toNat_and_not_and address (Nat.sub_le _ _) hbits
  have hlast : (first ||| host).toNat =
      (⟨family, address.toNat, prefixLength⟩ : Cidr).range.last := by
    -- The host bits of the lower bound are clear, so setting them adds them.
    have hclear : (2 ^ (family.bits - prefixLength) - 1) < 2 ^ (family.bits - prefixLength) := by
      omega
    rw [BitVec.toNat_or, hfirst, toNat_lowBits (by omega)]
    simp only [Cidr.range, Cidr.firstAddress, Cidr.blockSize_eq_two_pow, Cidr.hostBits]
    rw [Nat.mul_comm, Nat.two_pow_add_eq_or_of_lt hclear]
  refine ⟨first, first ||| host, ?_, hfirst, hlast⟩
  rw [bounds?, hostMask?_eq hbits, hostMask?_eq hbits]
  rfl

/-- The size of a range is found without leaving the word, also where there is no room for it. -/
theorem size?_eq {range : Range} {first last : Word} (hfirst : first.toNat = range.first)
    (hlast : last.toNat = range.last) :
    ∃ size, size? first last = some size ∧ size.toNat = range.size := by
  have hle : first ≤ last := by
    rw [BitVec.le_def, hfirst, hlast]
    exact range.first_le_last
  have hothers : (last - first).toNat = range.last - range.first := by
    rw [BitVec.toNat_sub_of_le hle, hfirst, hlast]
  have hlt := (last - first).isLt
  rw [hothers] at hlt
  have hall : (BitVec.allOnes 128).toNat = 2 ^ 128 - 1 := BitVec.toNat_allOnes
  have hmax : Range.maxSize = 2 ^ 128 - 1 := by
    rw [Range.maxSize, Nat.one_shiftLeft]
  simp only [size?, sub?, if_pos hle, Option.bind_eq_bind, Option.bind_some]
  split
  next hwhole =>
    rw [hwhole, hall] at hothers
    refine ⟨_, rfl, ?_⟩
    rw [hwhole, hall, Range.size, hmax]
    omega
  next hpart =>
    have hne : range.last - range.first ≠ 2 ^ 128 - 1 := fun h =>
      hpart (BitVec.eq_of_toNat_eq (hothers.trans (h.trans hall.symm)))
    have hroom : (last - first).toNat + (1 : Word).toNat < 2 ^ 128 := by
      rw [hothers, toNat_one]
      omega
    have hfits : ¬ (last - first).uaddOverflow 1 = true := by
      rw [BitVec.uaddOverflow, decide_eq_true_eq]
      exact Nat.not_le_of_lt hroom
    refine ⟨_, if_neg hfits, ?_⟩
    rw [BitVec.toNat_add_of_lt hroom, hothers, toNat_one, Range.size, hmax]
    omega

end Word

namespace Cidr

/-- What the range of a block is, whatever two numbers the block is made of: the numbers with its
prefix, from a multiple of their number on. Only the bits of the address and the prefix length that
fit the family count, and of the address only the prefix. -/
structure Normalized (cidr : Cidr) : Prop where
  first_le_last : cidr.range.first ≤ cidr.range.last
  last_lt : cidr.range.last < 2 ^ cidr.family.bits
  contains_iff : ∀ address, cidr.range.contains address = true ↔
    address < 2 ^ cidr.family.bits ∧
      ∀ i, cidr.family.bits - min cidr.prefixLength cidr.family.bits ≤ i → i < cidr.family.bits →
        address.testBit i = cidr.address.testBit i
  dvd_first : 2 ^ (cidr.family.bits - min cidr.prefixLength cidr.family.bits) ∣ cidr.range.first
  size_eq : cidr.range.size =
    min (2 ^ (cidr.family.bits - min cidr.prefixLength cidr.family.bits)) (2 ^ 128 - 1)
  network_range : cidr.network.range = cidr.range
  reduced_range : (⟨cidr.family, cidr.address % 2 ^ cidr.family.bits,
    min cidr.prefixLength cidr.family.bits⟩ : Cidr).range = cidr.range
  reduced_compile : ∀ options, (⟨cidr.family, cidr.address % 2 ^ cidr.family.bits,
    min cidr.prefixLength cidr.family.bits⟩ : Cidr).compile options = cidr.compile options

theorem hostBits_eq_sub_min (cidr : Cidr) :
    cidr.hostBits = cidr.family.bits - min cidr.prefixLength cidr.family.bits := by
  rw [hostBits]
  omega

theorem normalized (cidr : Cidr) : cidr.Normalized where
  first_le_last := cidr.range.first_le_last
  last_lt := cidr.family.size_eq_two_pow ▸ cidr.range.last_lt
  contains_iff := by
    rw [← hostBits_eq_sub_min]
    exact fun _ => range_contains_iff_hasPrefix
  dvd_first := by
    rw [← hostBits_eq_sub_min, ← blockSize_eq_two_pow]
    exact Nat.dvd_mul_left _ _
  size_eq := by
    rw [← hostBits_eq_sub_min]
    exact cidr.size_range
  network_range := cidr.network_range
  reduced_range := range_of_reduced _ _ _
  reduced_compile := compile_eq_of_range_eq (range_of_reduced _ _ _)

/-- The range of a block is what its prefix leaves open. So two blocks of one family have no address
in common, or one lies in the other: that with the longer prefix in the other one exactly if its
address does. Masks give the bounds and the size of the range with no step that leaves a word. -/
theorem range_is_left_open_by_prefix :
    (∀ cidr : Cidr, cidr.Normalized) ∧
      (∀ cidr other : Cidr, cidr.family = other.family →
        ((∀ address,
            ¬ (cidr.range.contains address = true ∧ other.range.contains address = true)) ∨
          (∀ address, cidr.range.contains address = true → other.range.contains address = true) ∨
          ∀ address, other.range.contains address = true → cidr.range.contains address = true) ∧
        (min cidr.prefixLength cidr.family.bits ≤ min other.prefixLength other.family.bits →
          ((∀ address, other.range.contains address = true →
              cidr.range.contains address = true) ↔
            cidr.range.contains (other.address % 2 ^ cidr.family.bits) = true))) ∧
      ∀ (family : Family) (address : Word) (prefixLength : Nat), ∃ first last size,
        Word.bounds? family address prefixLength = some (first, last) ∧
          Word.size? first last = some size ∧
          first.toNat = (⟨family, address.toNat, prefixLength⟩ : Cidr).range.first ∧
          last.toNat = (⟨family, address.toNat, prefixLength⟩ : Cidr).range.last ∧
          size.toNat = (⟨family, address.toNat, prefixLength⟩ : Cidr).range.size := by
  refine ⟨normalized, ?_, ?_⟩
  · intro cidr other hfamily
    refine ⟨disjoint_or_nested cidr other, fun hprefix => range_subset_iff hfamily ?_⟩
    rw [hostBits_eq_sub_min, hostBits_eq_sub_min, ← hfamily]
    rw [← hfamily] at hprefix
    exact Nat.sub_le_sub_left hprefix _
  · intro family address prefixLength
    obtain ⟨first, last, hbounds, hfirst, hlast⟩ := Word.bounds?_eq family address prefixLength
    obtain ⟨size, hsize, hsize'⟩ := Word.size?_eq hfirst hlast
    exact ⟨first, last, size, hbounds, hsize, hfirst, hlast, hsize'⟩

/-- Two blocks with bits above the width of their family, one of them with a prefix beyond it. -/
theorem range_is_left_open_by_prefix_beyond_width :
    min 8 Family.v4.bits ≤ min 200 Family.v4.bits ∧
      ∀ address, (⟨.v4, 0x70a010000, 200⟩ : Cidr).range.contains address = true →
        (⟨.v4, 0x30a000001, 8⟩ : Cidr).range.contains address = true := by
  have hshorter : min 8 Family.v4.bits ≤ min 200 Family.v4.bits := by decide
  obtain ⟨-, hpairs, -⟩ := range_is_left_open_by_prefix
  obtain ⟨-, hsubset⟩ := hpairs ⟨.v4, 0x30a000001, 8⟩ ⟨.v4, 0x70a010000, 200⟩ rfl
  exact ⟨hshorter, (hsubset hshorter).mpr (by decide)⟩

end Cidr

end NetPattern
