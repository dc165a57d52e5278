import StakeChain.Transaction
/-!
Where transactions lie in a serialized block: a header of fixed size, the count of transactions in
compact form, and the transactions one after another.
-/

namespace StakeChain

/-- Bytes of a block header. -/
def headerSize : Nat := 80

/-- Bytes of a count in compact form. -/
def compactSizeLength (n : Nat) : Nat :=
  if n < 0xfd then 1 else if n < UInt16.size then 3 else if n < UInt32.size then 5 else 9

/-- The places of parts of the given sizes, the first at `start`. -/
def offsetsFrom (start : Nat) : List Nat → List Nat
  | [] => []
  | size :: rest => start :: offsetsFrom (start + size) rest

/-- Bytes before each transaction of a block. -/
def transactionOffsets (txs : List Transaction) : List Nat :=
  offsetsFrom (headerSize + compactSizeLength txs.length) (txs.map fun tx => tx.size.toNat)

end StakeChain
