import Mathlib

/-!
# Bytes in network order

Every integer of a wire format goes through `htonl` and its relatives: the
most significant byte first. Here an unsigned integer of `n` bytes is a natural
below `256 ^ n`, written and read back with the same two functions whatever its
width; the fixed-width types of the program are wrappers around them.

The second half is about texts ended by a NUL byte, the other way a format can
delimit a field without announcing its length.
-/

namespace CentreonBroker

abbrev Bytes := List UInt8

namespace Bytes

/-! ## Integers -/

/-- The `n` low bytes of `v`, most significant first. -/
def toNet : Nat → Nat → Bytes
  | 0, _ => []
  | n + 1, v => UInt8.ofNat (v / 256 ^ n) :: toNet n v

/-- The number a byte string spells in base 256, starting from `acc`. -/
def ofNetAux (acc : Nat) : Bytes → Nat
  | [] => acc
  | b :: bs => ofNetAux (acc * 256 + b.toNat) bs

/-- The number a byte string spells in base 256. -/
def ofNet (bs : Bytes) : Nat := ofNetAux 0 bs

@[simp] theorem length_toNet (n v : Nat) : (toNet n v).length = n := by
  induction n with
  | zero => rfl
  | succ n ih => simp [toNet, ih]

theorem ofNetAux_toNet (n : Nat) : ∀ (acc v : Nat),
    ofNetAux acc (toNet n v) = acc * 256 ^ n + v % 256 ^ n := by
  induction n with
  | zero => intro acc v; simp [toNet, ofNetAux, Nat.mod_one]
  | succ n ih =>
    intro acc v
    have hb : (UInt8.ofNat (v / 256 ^ n)).toNat = v / 256 ^ n % 256 := by simp
    rw [toNet, ofNetAux, ih, hb, Nat.pow_succ, Nat.mod_mul, Nat.add_mul, Nat.mul_assoc,
      Nat.mul_comm 256 (256 ^ n), Nat.mul_comm (v / 256 ^ n % 256) (256 ^ n)]
    omega

/-- **An integer comes back from its bytes**, up to the bytes there was room for. -/
theorem ofNet_toNet (n v : Nat) : ofNet (toNet n v) = v % 256 ^ n := by
  rw [ofNet, ofNetAux_toNet]
  omega

/-! ## The fixed-width integers of the program -/

/-- `htons`, as the two bytes that end up in memory. -/
def htons (v : UInt16) : Bytes := toNet 2 v.toNat

/-- `ntohs` of the first two bytes of a buffer. -/
def ntohs (b : Bytes) : UInt16 := UInt16.ofNat (ofNet (b.take 2))

/-- `htonl`, as the four bytes that end up in memory. -/
def htonl (v : UInt32) : Bytes := toNet 4 v.toNat

/-- `ntohl` of the first four bytes of a buffer. -/
def ntohl (b : Bytes) : UInt32 := UInt32.ofNat (ofNet (b.take 4))

@[simp] theorem length_htons (v : UInt16) : (htons v).length = 2 := length_toNet 2 _

@[simp] theorem length_htonl (v : UInt32) : (htonl v).length = 4 := length_toNet 4 _

@[simp] theorem ntohs_htons (v : UInt16) (rest : Bytes) : ntohs (htons v ++ rest) = v := by
  have hv : v.toNat < 256 ^ 2 := v.toNat_lt
  rw [ntohs, List.take_left' (length_htons v), htons, ofNet_toNet, Nat.mod_eq_of_lt hv]
  exact UInt16.ofNat_toNat

@[simp] theorem ntohl_htonl (v : UInt32) (rest : Bytes) : ntohl (htonl v ++ rest) = v := by
  have hv : v.toNat < 256 ^ 4 := v.toNat_lt
  rw [ntohl, List.take_left' (length_htonl v), htonl, ofNet_toNet, Nat.mod_eq_of_lt hv]
  exact UInt32.ofNat_toNat

/-! ## Texts ended by a NUL byte -/

/-- How many bytes stand before the first NUL, all of them when there is none. -/
def strlen : Bytes → Nat
  | [] => 0
  | b :: bs => if b = 0 then 0 else strlen bs + 1

theorem strlen_append {s : Bytes} (h : (0 : UInt8) ∉ s) (rest : Bytes) :
    strlen (s ++ 0 :: rest) = s.length := by
  induction s with
  | nil => rfl
  | cons b s ih =>
    have hb : b ≠ 0 := fun he => h (he ▸ List.mem_cons_self)
    rw [List.cons_append, strlen, if_neg hb, ih (fun hm => h (List.mem_cons_of_mem _ hm))]
    rfl

theorem take_strlen_append {s : Bytes} (h : (0 : UInt8) ∉ s) (rest : Bytes) :
    (s ++ 0 :: rest).take (strlen (s ++ 0 :: rest)) = s := by
  rw [strlen_append h, List.take_left' rfl]

end Bytes

end CentreonBroker
