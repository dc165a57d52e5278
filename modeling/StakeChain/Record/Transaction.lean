import StakeChain.Record.Scalar
import StakeChain.Stake.Source
import StakeChain.Transaction
/-!
Transactions and their outputs as records. Each type has its writer beside its reader; a reader takes
whatever the writer writes.
-/

namespace StakeChain

open Document

namespace OutPoint

def toDocument (o : OutPoint) : Document :=
  .table [("txid", o.txid.toDocument), ("vout", .nat o.vout.toNat)]

def ofDocument? (d : Document) : Option OutPoint := do
  match ← d.fields? ["txid", "vout"] with
  | [txid, vout] => return ⟨← required Hash.ofDocument? txid, ← required uint32? vout⟩
  | _ => none

/-- An outpoint as a transaction's input. -/
def toInputDocument (o : OutPoint) : Document := .table [("prevout", o.toDocument)]

def ofInputDocument? (d : Document) : Option OutPoint := do
  match ← d.fields? ["prevout"] with
  | [prevout] => required ofDocument? prevout
  | _ => none

end OutPoint

namespace Output

def toDocument (o : Output) : Document :=
  .table [("value", .int o.value.toInt), ("script_pubkey", Text.Hex.toDocument o.script)]

def ofDocument? (d : Document) : Option Output := do
  match ← d.fields? ["value", "script_pubkey"] with
  | [value, script] => return ⟨← required int64? value, ← defaulted [] Text.Hex.ofDocument? script⟩
  | _ => none

end Output

namespace Transaction

def toDocument (tx : Transaction) : Document :=
  .table [
    ("txid", tx.txid.toDocument),
    ("time", ofOption (fun t : UInt32 => .nat t.toNat) tx.time),
    ("inputs", .list (tx.inputs.map OutPoint.toInputDocument)),
    ("outputs", .list (tx.outputs.map Output.toDocument)),
    ("serialized_size", .nat tx.size.toNat)]

def ofDocument? (d : Document) : Option Transaction := do
  match ← d.fields? ["txid", "time", "inputs", "outputs", "serialized_size"] with
  | [txid, time, inputs, outputs, size] =>
    return {
      txid := ← required Hash.ofDocument? txid
      time := ← optional uint32? time
      inputs := ← required (listOf? OutPoint.ofInputDocument?) inputs
      outputs := ← required (listOf? Output.ofDocument?) outputs
      size := ← required uint32? size }
  | _ => none

end Transaction

namespace SourceBlock

def toDocument (b : SourceBlock) : Document :=
  .table [("hash", b.hash.toDocument), ("height", .nat b.height), ("time", .nat b.time.toNat)]

def ofDocument? (d : Document) : Option SourceBlock := do
  match ← d.fields? ["hash", "height", "time"] with
  | [hash, height, time] =>
    return ⟨← required Hash.ofDocument? hash, ← required nat32? height, ← required uint32? time⟩
  | _ => none

end SourceBlock

namespace StakeSource

def toDocument (s : StakeSource) : Document :=
  .table [
    ("outpoint", s.outpoint.toDocument),
    ("output", s.output.toDocument),
    ("tx_time", ofOption (fun t : UInt32 => .nat t.toNat) s.txTime),
    ("block", s.block.toDocument),
    ("tx_offset", .nat s.txOffset.toNat)]

def ofDocument? (d : Document) : Option StakeSource := do
  match ← d.fields? ["outpoint", "output", "tx_time", "block", "tx_offset"] with
  | [outpoint, output, txTime, block, txOffset] =>
    return {
      outpoint := ← required OutPoint.ofDocument? outpoint
      output := ← required Output.ofDocument? output
      txTime := ← optional uint32? txTime
      block := ← required SourceBlock.ofDocument? block
      txOffset := ← required uint32? txOffset }
  | _ => none

end StakeSource

end StakeChain
