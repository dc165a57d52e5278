import StakeChain.Hash.Text
/-!
Transactions, as far as staking looks at them: what they spend, what they create, when, and how many
bytes they take in a block.
-/

namespace StakeChain

/-- One output of one transaction. -/
structure OutPoint where
  txid : Hash
  vout : UInt32
deriving DecidableEq

namespace OutPoint

/-- The outpoint that a coinbase spends. -/
def null : OutPoint := ⟨.zero, 0xffffffff⟩

def isNull (o : OutPoint) : Bool := o == null

instance : ToString OutPoint := ⟨fun o => s!"{o.txid}:{o.vout}"⟩

end OutPoint

structure Output where
  /-- In base units. -/
  value : Int64
  script : List UInt8
deriving DecidableEq

namespace Output

/-- The output that comes first in a coinstake. -/
def marker : Output := ⟨0, []⟩

/-- No value and no script: such an output is never spent. -/
def isEmpty (o : Output) : Bool := o.value == 0 && o.script.isEmpty

end Output

structure Transaction where
  txid : Hash
  /-- Absent where the transaction's format has none. -/
  time : Option UInt32
  /-- The outpoints spent, in order. -/
  inputs : List OutPoint
  outputs : List Output
  /-- Bytes taken in a block. -/
  size : UInt32
deriving DecidableEq

namespace Transaction

/-- The only input is null. -/
def isCoinbase (tx : Transaction) : Bool :=
  match tx.inputs with
  | [input] => input.isNull
  | _ => false

/-- The first input, when it is not null and the first of two or more outputs is empty. -/
def kernelInput? (tx : Transaction) : Option OutPoint :=
  match tx.inputs, tx.outputs with
  | kernel :: _, first :: _ :: _ => if !kernel.isNull && first.isEmpty then some kernel else none
  | _, _ => none

def isCoinstake (tx : Transaction) : Bool := tx.kernelInput?.isSome

/-- The outputs that can be spent, each with its outpoint. -/
def created (tx : Transaction) : List (OutPoint × Output) :=
  (tx.outputs.zipIdx.filter fun o => !o.1.isEmpty).map fun o => (⟨tx.txid, UInt32.ofNat o.2⟩, o.1)

end Transaction

end StakeChain
