import JudgeServer.Library.Codec
import JudgeServer.Client.Packet

/-! The packets of `process_solutions` as a client reads them: the length it goes by,
and a reference decoder that takes the stream apart again. -/

namespace JudgeServer

open Codec

/-! The length prefix. -/

/-- How many bytes `send_all` is asked for: `(socklen_t) total_length`. -/
def dataLen (sln : Solution) : ℕ := (UInt32.ofNat (totalLength sln)).toNat

/-- What the two bytes at the start of the packet say. -/
def lengthPrefix (sln : Solution) : ℕ := (readBe16 (solutionPacket sln) 0).toNat

theorem lengthPrefix_eq (sln : Solution) : lengthPrefix sln = pktLength sln % 2 ^ 16 := by
  have hread : readBe16 (solutionPacket sln) 0 = UInt16.ofNat (pktLength sln) := by
    simp only [solutionPacket, List.append_assoc]
    exact readBe16_be16 _ _
  rw [lengthPrefix, hread]
  exact UInt16.toNat_ofNat'

theorem decodeRow_sourceLen {row : Row} (addr : ℕ) (h : row.source.length + 1 < 2 ^ 32) :
    (decodeRow addr row).sourceLen.toNat = row.source.length + 1 := UInt32.toNat_ofNat_of_lt' h

theorem decodeRow_source_length (addr : ℕ) (row : Row) :
    (decodeRow addr row).source.length = row.source.length + 1 := by simp [decodeRow]

/-- For a row whose length does not wrap: the prefix is the number of the bytes that
follow it in the packet exactly up to 65521 bytes of source; and it is the number of the
bytes that are sent after it exactly there and where the cast to `socklen_t` leaves a
piece of 2 to 14 bytes. -/
theorem length_prefix_iff (addr : ℕ) (row : Row) (h : row.source.length + 1 < 2 ^ 32) :
    (lengthPrefix (decodeRow addr row) = (solutionPacket (decodeRow addr row)).length - 2 ↔
      row.source.length ≤ 65521) ∧
    (lengthPrefix (decodeRow addr row) = dataLen (decodeRow addr row) - 2 ↔
      row.source.length ≤ 65521 ∨ 2 ^ 32 - 14 ≤ row.source.length) := by
  have hlen := decodeRow_sourceLen addr h
  have hsource := decodeRow_source_length addr row
  have hpacket := solutionPacket_length (hlen.trans hsource.symm).le
  have hdata : dataLen (decodeRow addr row) = totalLength (decodeRow addr row) % 2 ^ 32 :=
    UInt32.toNat_ofNat'
  rw [lengthPrefix_eq, hpacket, hdata, totalLength, pktLength, hlen]
  omega

/-- A row of one byte. -/
theorem length_prefix_small :
    lengthPrefix (decodeRow 0 ⟨1, 1, 1, [0x61], 5, 0, 0, []⟩) =
      (solutionPacket (decodeRow 0 ⟨1, 1, 1, [0x61], 5, 0, 0, []⟩)).length - 2 :=
  (length_prefix_iff 0 ⟨1, 1, 1, [0x61], 5, 0, 0, []⟩ (by decide)).1.2 (by decide)

def longRow : Row := ⟨1, 1, 1, List.replicate 65522 0x61, 5, 0, 0, []⟩

/-- With 65522 bytes of source the prefix is 0, and 65536 bytes follow it. -/
theorem length_prefix_wraps :
    lengthPrefix (decodeRow 0 longRow) = 0 ∧ dataLen (decodeRow 0 longRow) - 2 = 65536 ∧
      (solutionPacket (decodeRow 0 longRow)).length - 2 = 65536 := by
  have hrow : longRow.source.length = 65522 := List.length_replicate
  have hlen : (decodeRow 0 longRow).sourceLen.toNat = 65523 := by
    rw [decodeRow_sourceLen 0 (by rw [hrow]; decide), hrow]
  have hsource : (decodeRow 0 longRow).source.length = 65523 := by
    rw [decodeRow_source_length, hrow]
  refine ⟨?_, ?_, ?_⟩
  · rw [lengthPrefix_eq, pktLength, hlen]
    rfl
  · rw [dataLen, totalLength, pktLength, hlen]
    rfl
  · rw [solutionPacket_length (by omega), totalLength, pktLength, hlen]

/-! The reference decoder. -/

/-- What a client takes from a packet. -/
structure Submission where
  id : UInt32
  compilerId : UInt32
  source : List UInt8
  deriving DecidableEq, Repr

def readByte : Decoder UInt8 UInt8 := field 1 fun bytes => bytes.getD 0 0

def readUInt16 : Decoder UInt8 UInt16 := field 2 fun bytes => readBe16 bytes 0

def readUInt32 : Decoder UInt8 UInt32 := field 4 fun bytes => readBe32 bytes 0

/-- The packet behind its length: opcode, id, compiler id, source length, source. -/
def readBody : Decoder UInt8 Submission :=
  andThen readByte fun opCode =>
  andThen (require (opCode = OP_CHECK_SLN)) fun _ =>
  andThen readUInt32 fun id =>
  andThen readUInt32 fun compilerId =>
  andThen readUInt32 fun sourceLen =>
  andThen (takeN sourceLen.toNat) fun source =>
  yield ⟨id, compilerId, source⟩

def readPacket : Decoder UInt8 Submission :=
  andThen readUInt16 fun length => within length.toNat readBody

/-- All packets of a stream, which they have to use up. -/
def decodeStream : List UInt8 → Option (List Submission) := many readPacket

def Solution.submission (sln : Solution) : Submission := ⟨sln.id, sln.compilerId, sln.source⟩

theorem reads_byte (b : UInt8) : Reads readByte [b] b := reads_field _ rfl

theorem reads_uint16 (n : UInt16) : Reads readUInt16 (be16 n) n := by
  have hread : readBe16 (be16 n) 0 = n := by simpa using readBe16_be16 n []
  have h := reads_field (fun bytes => readBe16 bytes 0) (be16_length n)
  rwa [hread] at h

theorem reads_uint32 (n : UInt32) : Reads readUInt32 (be32 n) n := by
  have hread : readBe32 (be32 n) 0 = n := by simpa using readBe32_be32 n []
  have h := reads_field (fun bytes => readBe32 bytes 0) (be32_length n)
  rwa [hread] at h

/-- Whatever the source bytes are, the inner length tells where they end. -/
theorem reads_body {sln : Solution} (h : sln.source.length = sln.sourceLen.toNat) :
    Reads readBody ([OP_CHECK_SLN] ++ (be32 sln.id ++ (be32 sln.compilerId ++
      (be32 sln.sourceLen ++ (sln.source ++ []))))) sln.submission := by
  refine (reads_byte OP_CHECK_SLN).andThen (Reads.require rfl ?_)
  refine (reads_uint32 sln.id).andThen ((reads_uint32 sln.compilerId).andThen ?_)
  refine (reads_uint32 sln.sourceLen).andThen ((reads_takeN h).andThen ?_)
  exact reads_yield sln.submission

theorem reads_packet {sln : Solution} (h : sln.source.length = sln.sourceLen.toNat)
    (hfits : 13 + sln.sourceLen.toNat ≤ 65535) :
    Reads readPacket (solutionPacket sln) sln.submission := by
  have hpacket : solutionPacket sln = be16 (UInt16.ofNat (pktLength sln)) ++
      ([OP_CHECK_SLN] ++ (be32 sln.id ++ (be32 sln.compilerId ++
        (be32 sln.sourceLen ++ (sln.source ++ []))))) := by
    simp only [solutionPacket, List.take_of_length_le h.le, List.append_assoc, List.append_nil]
  have hlen : (UInt16.ofNat (pktLength sln)).toNat = pktLength sln := by
    rw [UInt16.toNat_ofNat', pktLength, Nat.mod_eq_of_lt (by omega)]
  rw [hpacket]
  refine (reads_uint16 _).andThen ((reads_body h).within ?_)
  rw [hlen]
  simp only [pktLength, be32, List.length_append, List.length_cons, List.length_nil, h]
  omega

/-- The packets of any list of solutions that fit decode to the list, in its order. -/
theorem stream_decodes (slns : List Solution)
    (h : ∀ sln ∈ slns, sln.source.length = sln.sourceLen.toNat ∧
      13 + sln.sourceLen.toNat ≤ 65535) :
    decodeStream (slns.flatMap solutionPacket) = some (slns.map Solution.submission) :=
  many_flatMap (fun sln hsln => reads_packet (h sln hsln).1 (h sln hsln).2)
    (fun sln _ => solutionPacket_ne_nil sln)

/-- The second source reads like a packet. -/
def samplePair : List Solution :=
  [⟨0, 1, 1, 1, [0x61, 0], 2, 5, 0, false, [], 0⟩,
    ⟨1, 2, 1, 1, [0, 13, 10, 0, 0, 0, 1], 7, 6, 0, false, [], 0⟩]

theorem stream_decodes_pair :
    decodeStream (samplePair.flatMap solutionPacket) =
      some [⟨1, 5, [0x61, 0]⟩, ⟨2, 6, [0, 13, 10, 0, 0, 0, 1]⟩] :=
  stream_decodes samplePair (by decide)

end JudgeServer
