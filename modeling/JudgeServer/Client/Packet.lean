import JudgeServer.SolutionsDb.Extract
import JudgeServer.Utils.Bytes

/-! Packets between server.c and a client: the packet that `process_solutions` builds. -/

namespace JudgeServer

def OP_CHECK_SLN : UInt8 := 10

def OP_RESULT : UInt8 := 109

/-- `pkt_length` of `process_solutions`: opcode, id, compiler id, length, source. -/
def pktLength (sln : Solution) : ℕ := 1 + 4 + 4 + 4 + sln.sourceLen.toNat

def totalLength (sln : Solution) : ℕ := 2 + pktLength sln

/-- The bytes of `client->send_pkt`. -/
def solutionPacket (sln : Solution) : List UInt8 :=
  be16 (UInt16.ofNat (pktLength sln)) ++ [OP_CHECK_SLN] ++ be32 sln.id ++ be32 sln.compilerId ++
    be32 sln.sourceLen ++ sln.source.take sln.sourceLen.toNat

theorem solutionPacket_ne_nil (sln : Solution) : solutionPacket sln ≠ [] := by
  simp [solutionPacket, be16]

theorem solutionPacket_length_le (sln : Solution) :
    (solutionPacket sln).length ≤ totalLength sln := by
  simp only [solutionPacket, totalLength, pktLength, be16, be32, List.length_append,
    List.length_cons, List.length_nil, List.length_take]
  omega

theorem solutionPacket_length {sln : Solution} (h : sln.sourceLen.toNat ≤ sln.source.length) :
    (solutionPacket sln).length = totalLength sln := by
  simp only [solutionPacket, totalLength, pktLength, be16, be32, List.length_append,
    List.length_cons, List.length_nil, List.length_take]
  omega

end JudgeServer
