import CentreonBroker.Lib.Bytes

/-!
# Data that zlib stores

The format of zlib with no compression: two bytes of header, blocks of at most 65535 bytes
behind their length and its complement, and an Adler-32 check at the end. The two functions
are here as a library that a model of a compressed stream may be run with: what is stored
is read back, and what is cut short is refused.
-/

namespace CentreonBroker.StoredZlib

open Bytes

/-- The most bytes that a stored block holds. -/
def max_stored : Nat := 65535

/-! ## The blocks -/

/-- What stands before a block: whether it is the last one, and twice its length. -/
def header (last : UInt8) (n : Nat) : Bytes :=
  last :: ((toNet 2 n).reverse ++ (toNet 2 (max_stored - n)).reverse)

def putBlocks (b : Bytes) : Bytes :=
  if b.length ≤ max_stored then header 1 b.length ++ b
  else header 0 max_stored ++ b.take max_stored ++ putBlocks (b.drop max_stored)
termination_by b.length
decreasing_by
  rename_i h
  have hmax : max_stored = 65535 := rfl
  rw [List.length_drop]
  omega

/-- The length that the block at the front of `data` announces. -/
def announced (data : Bytes) : Nat := ofNet ((data.drop 1).take 2).reverse

theorem length_header (last : UInt8) (n : Nat) : (header last n).length = 5 := by
  simp [header]

theorem announced_header {n : Nat} (last : UInt8) (h : n ≤ max_stored) (t : Bytes) :
    announced (header last n ++ t) = n := by
  have hlen : ((toNet 2 n).reverse).length = 2 := by simp
  have htake : ((header last n ++ t).drop 1).take 2 = (toNet 2 n).reverse := by
    rw [header, List.cons_append, List.drop_one, List.tail_cons, List.append_assoc,
      List.take_left' hlen]
  have hmax : max_stored = 65535 := rfl
  rw [announced, htake, List.reverse_reverse, ofNet_toNet, Nat.mod_eq_of_lt (by omega)]

/-- The blocks at the front of `data`, and what is behind them. -/
def getBlocks (data : Bytes) : Option (Bytes × Bytes) :=
  if _h : header (data.headD 1) (announced data) <+: data ∧
      announced data ≤ (data.drop 5).length then
    if data.headD 1 = 1 then
      some ((data.drop 5).take (announced data), (data.drop 5).drop (announced data))
    else
      (getBlocks ((data.drop 5).drop (announced data))).map
        (fun r => ((data.drop 5).take (announced data) ++ r.1, r.2))
  else none
termination_by data.length
decreasing_by
  have h5 := _h.1.length_le
  rw [length_header] at h5
  rw [List.length_drop, List.length_drop]
  omega

/-- What a whole block at the front gives. -/
theorem getBlocks_block {last : UInt8} {b : Bytes} (h : b.length ≤ max_stored) (t : Bytes) :
    getBlocks (header last b.length ++ b ++ t) =
      if last = 1 then some (b, t) else (getBlocks t).map (fun r => (b ++ r.1, r.2)) := by
  have hn : announced (header last b.length ++ (b ++ t)) = b.length := announced_header last h _
  have hhead : (header last b.length ++ (b ++ t)).headD 1 = last := rfl
  have hbody : (header last b.length ++ (b ++ t)).drop 5 = b ++ t :=
    List.drop_left' (length_header _ _)
  have hfits : header last b.length <+: header last b.length ++ (b ++ t) ∧
      b.length ≤ (b ++ t).length := by
    refine ⟨List.prefix_append _ _, ?_⟩
    rw [List.length_append]
    omega
  rw [List.append_assoc, getBlocks, hn, hhead, hbody, dif_pos hfits, List.take_left' rfl,
    List.drop_left' rfl]

/-- A block that is cut short is no block. -/
theorem getBlocks_cut {last : UInt8} {b : Bytes} {k : Nat} (h : b.length ≤ max_stored)
    (hk : k < 5 + b.length) : getBlocks ((header last b.length ++ b).take k) = none := by
  have h5 := length_header last b.length
  rw [getBlocks]
  refine dif_neg ?_
  intro ⟨hpre, hle⟩
  have hlen := hpre.length_le
  rw [length_header, List.length_take] at hlen
  -- so the header is whole, and it announces more than there is
  have htake : (header last b.length ++ b).take k = header last b.length ++ b.take (k - 5) := by
    rw [List.take_append, h5, List.take_of_length_le (by omega)]
  rw [htake, announced_header last h, List.drop_left' h5, List.length_take] at hle
  omega

theorem putBlocks_of_le {b : Bytes} (h : b.length ≤ max_stored) :
    putBlocks b = header 1 b.length ++ b := by
  rw [putBlocks, if_pos h]

theorem putBlocks_of_lt {b : Bytes} (h : ¬b.length ≤ max_stored) :
    putBlocks b =
      header 0 (b.take max_stored).length ++ b.take max_stored ++ putBlocks (b.drop max_stored) := by
  rw [putBlocks, if_neg h, List.length_take, Nat.min_eq_left (by omega)]

theorem getBlocks_putBlocks (b t : Bytes) : getBlocks (putBlocks b ++ t) = some (b, t) := by
  induction b using putBlocks.induct with
  | case1 b h => rw [putBlocks_of_le h, getBlocks_block h, if_pos rfl]
  | case2 b h ih =>
    have htake : (b.take max_stored).length ≤ max_stored := List.length_take_le _ _
    rw [putBlocks_of_lt h, List.append_assoc, getBlocks_block htake, if_neg (by decide), ih]
    show some (b.take max_stored ++ b.drop max_stored, t) = _
    rw [List.take_append_drop]

theorem length_lt_putBlocks (b : Bytes) : b.length < (putBlocks b).length := by
  induction b using putBlocks.induct with
  | case1 b h =>
    rw [putBlocks_of_le h, List.length_append, length_header]
    omega
  | case2 b h ih =>
    rw [putBlocks_of_lt h, List.length_append, List.length_append, length_header,
      List.length_take]
    rw [List.length_drop] at ih
    omega

theorem getBlocks_take {b : Bytes} {k : Nat} (h : k < (putBlocks b).length) :
    getBlocks ((putBlocks b).take k) = none := by
  induction b using putBlocks.induct generalizing k with
  | case1 b hb =>
    rw [putBlocks_of_le hb] at h ⊢
    rw [List.length_append, length_header] at h
    exact getBlocks_cut hb h
  | case2 b hb ih =>
    have htake : (b.take max_stored).length ≤ max_stored := List.length_take_le _ _
    rw [putBlocks_of_lt hb] at h ⊢
    rw [List.length_append] at h
    have hlen : (header 0 (b.take max_stored).length ++ b.take max_stored).length =
        5 + (b.take max_stored).length := by rw [List.length_append, length_header]
    rw [hlen] at h
    rw [List.take_append, hlen]
    -- the cut is in the first block or behind it
    by_cases hk : k < 5 + (b.take max_stored).length
    · rw [Nat.sub_eq_zero_of_le (by omega), List.take_zero, List.append_nil]
      exact getBlocks_cut htake hk
    · rw [List.take_of_length_le (by omega), getBlocks_block htake, if_neg (by decide),
        ih (by omega)]
      rfl

/-! ## The stream -/

def adlerStep (s : Nat × Nat) (x : UInt8) : Nat × Nat :=
  ((s.1 + x.toNat) % 65521, (s.2 + (s.1 + x.toNat) % 65521) % 65521)

/-- The Adler-32 check of some data. -/
def adler32 (b : Bytes) : Bytes :=
  toNet 2 (b.foldl adlerStep (1, 0)).2 ++ toNet 2 (b.foldl adlerStep (1, 0)).1

/-- `compress2` at level 0. -/
def store (b : Bytes) : Bytes := 0x78 :: 0x01 :: (putBlocks b ++ adler32 b)

/-- `uncompress` of stored data, whatever the room. -/
def unstore : Bytes → Option Bytes
  | 0x78 :: 0x01 :: data =>
    (getBlocks data).bind (fun r => if adler32 r.1 <+: r.2 then some r.1 else none)
  | _ => none

theorem unstore_store (b : Bytes) : unstore (store b) = some b := by
  show (getBlocks (putBlocks b ++ adler32 b)).bind _ = _
  rw [getBlocks_putBlocks]
  exact if_pos (List.prefix_refl _)

theorem length_lt_store (b : Bytes) : b.length < (store b).length := by
  have h := length_lt_putBlocks b
  rw [store, List.length_cons, List.length_cons, List.length_append]
  omega

theorem unstore_take {b : Bytes} {k : Nat} (h : k < (store b).length) :
    unstore ((store b).take k) = none := by
  rw [store, List.length_cons, List.length_cons, List.length_append] at h
  rcases k with _ | _ | k
  · rfl
  · rfl
  · show (getBlocks ((putBlocks b ++ adler32 b).take k)).bind _ = none
    rw [List.take_append]
    by_cases hk : k < (putBlocks b).length
    · rw [Nat.sub_eq_zero_of_le (by omega), List.take_zero, List.append_nil, getBlocks_take hk]
      rfl
    · -- then the check is cut
      rw [List.take_of_length_le (by omega), getBlocks_putBlocks]
      refine if_neg ?_
      intro hpre
      have hle : (adler32 b).length ≤ ((adler32 b).take (k - (putBlocks b).length)).length :=
        hpre.length_le
      rw [List.length_take] at hle
      omega

end CentreonBroker.StoredZlib
