import CentreonBroker.Bbdo.Stream
import CentreonBroker.Lib.Crc

/-!
# What the checksum of a header detects

`crc16_ccitt` takes four bits at a time, from a table. The table is that of the register of `Crc`
whose generator is 0x8408, so that `_read_any` does not take a header for a good one when what it
was altered by is a burst of sixteen bits, two bits, or an odd number of bits.
-/

namespace CentreonBroker.Bbdo

open Bytes Io

/-- What `crc_tbl` is made from. -/
def generator : BitVec 16 := 0x8408#16

/-- The bits of a byte, in the order that they go into the register. -/
def byteBits (c : UInt8) : List Bool :=
  (List.range 4).map c.toBitVec.getLsbD ++ (List.range 4).map fun k => c.toBitVec.getLsbD (4 + k)

def bits (data : Bytes) : List Bool := data.flatMap byteBits

theorem length_bits (data : Bytes) : (bits data).length = 8 * data.length := by
  induction data with
  | nil => rfl
  | cons c data ih =>
    rw [bits, List.flatMap_cons, List.length_append, ← bits, ih, List.length_cons]
    simp only [byteBits, List.length_append, List.length_map, List.length_range]
    omega

/-! ## Four bits -/

/-- An entry of the table is what its index leaves. -/
theorem crcTbl_eq : ∀ n, n < 16 → (crcTbl.getD n 0).toBitVec =
    Crc.run generator 0 ((List.range 4).map n.testBit) := by decide

theorem crcNibble_toBitVec (crc : UInt16) (c : UInt8) :
    (crcNibble crc c).toBitVec =
      Crc.run generator crc.toBitVec ((List.range 4).map c.toBitVec.getLsbD) := by
  have hshift : ((crc >>> 4) &&& 0x0fff).toBitVec = crc.toBitVec >>> 4 := by
    refine BitVec.eq_of_toNat_eq ?_
    have hlt : crc.toNat >>> 4 < 2 ^ 12 := by
      rw [Nat.shiftRight_eq_div_pow]
      have := crc.toNat_lt
      omega
    simpa using Nat.and_two_pow_sub_one_of_lt_two_pow hlt
  have hindex : ((crc ^^^ c.toUInt16) &&& 15).toNat < 16 := by
    rw [UInt16.toNat_and]
    exact Nat.lt_of_le_of_lt Nat.and_le_right (by decide)
  have hbits : ∀ k ∈ List.range 4, ((crc ^^^ c.toUInt16) &&& 15).toNat.testBit k =
      (crc.toBitVec.getLsbD k ^^ c.toBitVec.getLsbD k) := by
    intro k hk
    have hmask : (15 : ℕ).testBit k = true := by
      have hlt := List.mem_range.mp hk
      revert k
      decide
    simp [Nat.testBit_and, Nat.testBit_xor, hmask, BitVec.getLsbD]
  rw [crcNibble, UInt16.toBitVec_xor, hshift, crcTbl_eq _ hindex, List.map_congr_left hbits,
    ← Crc.run_own, ← Crc.run_errors _ (by simp)]
  have hzero : crc.toBitVec ^^^ (0 : BitVec 16) = crc.toBitVec := BitVec.xor_zero
  rw [hzero]
  refine congrArg _ ?_
  simp [Crc.errors, List.zipWith_map]

/-! ## The whole text -/

theorem crcByte_toBitVec (crc : UInt16) (c : UInt8) :
    (crcNibble (crcNibble crc c) (c >>> 4)).toBitVec =
      Crc.run generator crc.toBitVec (byteBits c) := by
  rw [crcNibble_toBitVec, crcNibble_toBitVec, byteBits, Crc.run_append]
  refine congrArg _ (List.map_congr_left fun k _ => ?_)
  simp [BitVec.getLsbD, Nat.testBit_shiftRight]

/-- **The table computes the register** of the generator. -/
theorem crc16Ccitt_toBitVec (data : Bytes) :
    (crc16Ccitt data).toBitVec = ~~~ Crc.run generator 0xffff#16 (bits data) := by
  have hfold : ∀ (data : Bytes) (crc : UInt16),
      (data.foldl (fun crc c => crcNibble (crcNibble crc c) (c >>> 4)) crc).toBitVec =
        Crc.run generator crc.toBitVec (bits data) := by
    intro data
    induction data with
    | nil => exact fun _ => rfl
    | cons c data ih =>
      intro crc
      rw [List.foldl_cons, ih, crcByte_toBitVec, ← Crc.run_append]
      rfl
  rw [crc16Ccitt, UInt16.toBitVec_not, hfold]
  rfl

/-- What differs is a burst of sixteen bits, two bits within fourteen bytes, or an odd number of
bits. -/
def Detected (e : List Bool) : Prop := Crc.Burst 16 e ∨ Crc.Pair 111 e ∨ Crc.odd e = true

theorem generator_pair :
    ∀ k, k < 111 → Crc.run generator generator (List.replicate k false) ≠ 1#16 := by
  decide +kernel

theorem crc16Ccitt_detects {data data' : Bytes} (hlen : data.length = data'.length)
    (h : Detected (Crc.errors (bits data) (bits data'))) : crc16Ccitt data ≠ crc16Ccitt data' := by
  intro heq
  have hbits : (bits data).length = (bits data').length := by rw [length_bits, length_bits, hlen]
  have hrun : Crc.run generator 0xffff#16 (bits data) =
      Crc.run generator 0xffff#16 (bits data') := by
    have hnot := congrArg UInt16.toBitVec heq
    rw [crc16Ccitt_toBitVec, crc16Ccitt_toBitVec] at hnot
    exact BitVec.not_inj.mp hnot
  have hzero := (Crc.run_eq_iff generator hbits _).mp hrun
  have hlast : generator.getLsbD (16 - 1) = true := by decide
  rcases h with hburst | hpair | hodd
  · exact Crc.run_burst hlast hburst hzero
  · exact Crc.run_pair hlast generator_pair hpair hzero
  · exact Crc.run_odd (by decide) hodd hzero

/-! ## A header -/

/-- The fourteen bytes that the checksum is for. -/
def headerBody (size : UInt16) (i : Ids) : Bytes :=
  htons size ++ (htonl i.event_id ++ (htonl i.source_id ++ htonl i.dest_id))

theorem readPacket_filled {size : Nat} {s : Stream} (h : size ≤ s.packet.length)
    (sub : Substream) : readPacket size s sub = (.filled, s, sub) := by
  cases sub with
  | nil => rw [readPacket, if_pos h]
  | cons c cs => rw [readPacket, if_pos h]

/-- **An altered header is not taken for a good one**: `_read_any` drops its first byte, and looks
for a header behind it. -/
theorem turn_altered {size : UInt16} {i : Ids} {body rest : Bytes} {s : Stream}
    (hlen : body.length = 14)
    (h : Detected (Crc.errors (bits (headerBody size i)) (bits body)))
    (hpacket : s.packet = (header size i).take 2 ++ (body ++ rest)) (sub : Substream) :
    turn s sub =
      (none, { s with packet := s.packet.drop 1, skipped := s.skipped + 1 }, sub) := by
  have hbody : (headerBody size i).length = 14 := by simp [headerBody]
  have htake : (header size i).take 2 = htons (crc16Ccitt (headerBody size i)) := by
    show (htons (crc16Ccitt (headerBody size i)) ++ _).take 2 = _
    exact List.take_left' (length_htons _)
  rw [htake] at hpacket
  have hlength : headerSize ≤ s.packet.length := by
    rw [hpacket, List.length_append, List.length_append, length_htons, hlen, headerSize]
    omega
  have hne : (parseHeader s.packet).expected ≠ (parseHeader s.packet).chksum := by
    have hexpected : (parseHeader s.packet).expected = crc16Ccitt body := by
      show crc16Ccitt ((s.packet.drop 2).take 14) = _
      rw [hpacket, List.drop_left' (length_htons _), List.take_left' hlen]
    have hchksum : (parseHeader s.packet).chksum = crc16Ccitt (headerBody size i) := by
      show ntohs s.packet = _
      rw [hpacket, ntohs_htons]
    rw [hexpected, hchksum]
    exact (crc16Ccitt_detects (hbody.trans hlen.symm) h).symm
  rw [turn, readPacket_filled hlength]
  simp only [if_pos hne]

/-- The header of an empty event, of which one bit of the size was altered. -/
theorem turn_altered_size :
    turn {
        packet := (header 0 ⟨1, 2, 3⟩).take 2 ++
          ([0, 1, 0, 0, 0, 1, 0, 0, 0, 2, 0, 0, 0, 3] ++ [])
        buffer := [], skipped := 0 } [] =
      (none, {
        packet := ((header 0 ⟨1, 2, 3⟩).take 2 ++
          ([0, 1, 0, 0, 0, 1, 0, 0, 0, 2, 0, 0, 0, 3] ++ [])).drop 1
        buffer := [], skipped := 1 }, []) :=
  turn_altered rfl (.inr (.inr (by decide +kernel))) rfl []

end CentreonBroker.Bbdo
