/-! Numbers of what is kept in 64 shards. The lower six bits of a number are the shard, the bits above them the
place in it. -/
namespace GradualTypes.ShardNumber

def first : Fin 64 := 0

/- The shard that a hash picks. -/
def home (hash : UInt64) : Fin 64 := Fin.ofNat 64 (hash &&& 63).toNat

def pack (place : UInt32) (shard : Fin 64) : UInt32 := (place <<< 6) ||| (UInt32.ofNat shard &&& 63)

def shard (n : UInt32) : Fin 64 := Fin.ofNat 64 (n &&& 63).toNat

def place (n : UInt32) : Nat := (n >>> 6).toNat

/- So many places can be told apart. -/
def places : Nat := 67108864

theorem parts (n : UInt32) : n.toNat = place n * 64 + shard n := by
  have upper : place n = n.toNat / 64 := by
    simp [place, UInt32.toNat_shiftRight, Nat.shiftRight_eq_div_pow]
  have lower : (shard n : Nat) = n.toNat % 64 := by
    have mask : n.toNat &&& 63 = n.toNat % 64 := Nat.and_two_pow_sub_one_eq_mod n.toNat 6
    simp [shard, mask]
  omega

theorem distinct {m n : UInt32} (sameShard : shard m = shard n) (samePlace : place m = place n) : m = n := by
  apply UInt32.toNat_inj.mp
  rw [parts, parts, sameShard, samePlace]

theorem packNumber {place : UInt32} (small : place.toNat < places) (s : Fin 64) :
    (pack place s).toNat = place.toNat * 64 + s := by
  have lower : (UInt32.ofNat s &&& 63).toNat = s := by
    have mask : (s : Nat) &&& 63 = s % 64 := Nat.and_two_pow_sub_one_eq_mod s 6
    have number : (UInt32.ofNat s).toNat = s := UInt32.toNat_ofNat_of_lt' (Nat.lt_trans s.isLt (by decide))
    rw [UInt32.toNat_and, number]
    exact mask.trans (Nat.mod_eq_of_lt s.isLt)
  have upper : (place <<< 6).toNat = place.toNat <<< 6 := by
    unfold places at small
    simp [UInt32.toNat_shiftLeft, Nat.shiftLeft_eq]
    omega
  rw [pack, UInt32.toNat_or, lower, upper, ← Nat.shiftLeft_add_eq_or_of_lt (i := 6) s.isLt, Nat.shiftLeft_eq]

theorem packed {place : UInt32} (small : place.toNat < places) (s : Fin 64) :
    shard (pack place s) = s ∧ ShardNumber.place (pack place s) = place.toNat := by
  have number := packNumber small s
  have unpacked := parts (pack place s)
  have inside := (shard (pack place s)).isLt
  have below := s.isLt
  constructor
  · apply Fin.ext
    omega
  · omega

end GradualTypes.ShardNumber
