import StakeChain.Chain.View
import StakeChain.Ledger.Layout
import StakeChain.Stake.Source
import StakeChain.State.Error
/-!
All outputs that blocks of any branch have created, in the order they were connected, each with the
blocks that created and spent it. Read through the tip of a branch, the store is the output set of
that branch: an output is live there when its creator is on the branch and no spender is.
-/

namespace StakeChain

structure OutputEntry where
  source : StakeSource
  /-- The id of the block that created it. -/
  creator : Nat
  /-- The ids of the blocks, on any branch, that spent it. -/
  spenders : List Nat

/-- Created on the branch that ends at `tip`, and not spent on it. -/
def OutputEntry.liveAt (v : View) (tip : Option Nat) (e : OutputEntry) : Bool :=
  v.onBranch e.creator tip && !e.spenders.any fun id => v.onBranch id tip

structure OutputStore where
  entries : Array OutputEntry

namespace OutputStore

def empty : OutputStore := ⟨#[]⟩

def size (s : OutputStore) : Nat := s.entries.size

def isEmpty (s : OutputStore) : Bool := s.entries.isEmpty

/-- Whether an entry is the outpoint's and live. -/
def isLive (v : View) (tip : Option Nat) (o : OutPoint) (e : OutputEntry) : Bool :=
  e.source.outpoint == o && e.liveAt v tip

/-- The output that an outpoint names on the branch that ends at `tip`. -/
def get? (s : OutputStore) (v : View) (tip : Option Nat) (o : OutPoint) : Option StakeSource :=
  (s.entries.find? (isLive v tip o)).map OutputEntry.source

/-- The number of outputs live on the branch that ends at `tip`. -/
def unspentCount (s : OutputStore) (v : View) (tip : Option Nat) : Nat :=
  s.entries.countP fun e => e.liveAt v tip

/-- The branch's outputs as the stake check reads them. -/
def outputView (s : OutputStore) (v : View) (tip : Option Nat) : OutputView :=
  fun o => .ok (s.get? v tip o)

/-- Marks the outpoint's live output as spent by block `id`. Where there is none nothing happens. -/
def spend (s : OutputStore) (v : View) (id : Nat) (o : OutPoint) : OutputStore :=
  match s.entries.findIdx? (isLive v (some id) o) with
  | some i => ⟨s.entries.modify i fun e => { e with spenders := e.spenders ++ [id] }⟩
  | none => s

/-- Adds the outputs that a transaction of block `id` creates. -/
def create (s : OutputStore) (id : Nat) (block : SourceBlock) (tx : Transaction) (offset : Nat) :
    OutputStore :=
  ⟨tx.created.foldl (fun entries o =>
    entries.push ⟨⟨o.1, o.2, tx.time, block, UInt32.ofNat offset⟩, id, []⟩) s.entries⟩

/-- Spends the inputs of a transaction of block `id`, then adds its outputs. -/
def apply (s : OutputStore) (v : View) (id : Nat) (block : SourceBlock) (tx : Transaction)
    (offset : Nat) : OutputStore :=
  (tx.inputs.foldl (fun s o => s.spend v id o) s).create id block tx offset

/-- Applies the transactions of block `id`, which the view already has, in order. -/
def connect (s : OutputStore) (v : View) (id : Nat) (block : SourceBlock) (txs : List Transaction) :
    OutputStore :=
  (txs.zip (transactionOffsets txs)).foldl (fun s t => s.apply v id block t.1 t.2) s

/-- The inputs of the transactions one after another, each with the outpoints created before it. -/
def spends (created : List OutPoint) : List Transaction → List (OutPoint × List OutPoint)
  | [] => []
  | tx :: rest =>
    tx.inputs.map (fun o => (o, created)) ++ spends (tx.created.map Prod.fst ++ created) rest

/-- Goes through spends in order: null inputs aside, none is spent twice, and each is available. -/
def checkSpends (available : OutPoint → Bool) :
    List OutPoint → List (OutPoint × List OutPoint) → Except StateError Unit
  | _, [] => .ok ()
  | spent, (o, created) :: rest =>
    if o.isNull then checkSpends available spent rest
    else if spent.contains o then .error (.doubleSpend o)
    else if !available o && !created.contains o then .error (.missingInput o)
    else checkSpends available (o :: spent) rest

/-- Whether the transactions can be applied, in order, on top of the branch that ends at `tip`. -/
def checkSpendable (s : OutputStore) (v : View) (tip : Option Nat) (txs : List Transaction) :
    Except StateError Unit :=
  checkSpends (fun o => (s.get? v tip o).isSome) [] (spends [] txs)

end OutputStore

end StakeChain
