import StakeChain.Chain.Position
import StakeChain.Modifier.Section
/-!
The draw of a new stake modifier. Each round takes, among the blocks not taken yet whose time is not
past the end of the round's section, the one with the lowest score; the round's bit is that block's
entropy bit. The score hashes the block's own hash with the modifier before, so that nobody knows it
earlier than that modifier.
-/

namespace StakeChain

/-- What is hashed for the score of a block. -/
def scoreMessage (b : Position) (prevModifier : UInt64) : List UInt8 :=
  b.drawHash.toBytes ++ word64 prevModifier

/-- The score of a block; the lowest wins. That of a proof-of-stake block is divided by `2 ^ 32`,
which puts it before proof-of-work blocks. -/
def drawScore (b : Position) (prevModifier : UInt64) : Nat :=
  let score := (Hash.doubleSha256 (scoreMessage b prevModifier)).toNat
  if b.flags.proofOfStake then score >>> 32 else score

/-- A block with its score. -/
structure Candidate where
  block : Position
  score : Nat

namespace Candidate

/-- The order of candidates: by time, and at one time by the bytes of the hash. -/
def le (a b : Candidate) : Bool :=
  a.block.time < b.block.time || (a.block.time == b.block.time && a.block.hash.rank ≤ b.block.hash.rank)

/-- The candidates among the blocks of a window, in their order. -/
def ofWindow (window : List Position) (prevModifier : UInt64) : List Candidate :=
  (window.map fun b => ⟨b, drawScore b prevModifier⟩).mergeSort le

/-- The first of the candidates with the lowest score. -/
def lowest (first : Candidate) (rest : List Candidate) : Candidate :=
  rest.foldl (fun best c => if c.score < best.score then c else best) first

/-- The winner of a round that ends at `stop`. The first candidate takes part whatever its time. -/
def winner? (stop : Int) : List Candidate → Option Candidate
  | [] => none
  | first :: rest => some (lowest first (rest.takeWhile fun c => (c.block.time.toNat : Int) ≤ stop))

/-- The winners of `left` rounds from round `round` on, where the section before it ends at `stop`.
A block that has won takes no further part. -/
def winners (p : Parameters) : Nat → Nat → Int → List Candidate → List Position
  | 0, _, _, _ => []
  | left + 1, round, stop, candidates =>
    let stop := stop + p.selectionSection round
    match winner? stop candidates with
    | none => []
    | some w =>
      w.block :: winners p left (round + 1) stop (candidates.filter fun c => c.block.hash != w.block.hash)

end Candidate

/-- The number whose bits, lowest first, are the entropy bits of the blocks. -/
def entropyWord : List Position → Nat
  | [] => 0
  | b :: rest => b.flags.entropy.toNat + 2 * entropyWord rest

/-- The modifier drawn from a window of blocks, oldest first, whose first section begins at `start`. -/
def drawModifier (p : Parameters) (prevModifier : UInt64) (start : Int) (window : List Position) :
    UInt64 :=
  let candidates := Candidate.ofWindow window prevModifier
  UInt64.ofNat (entropyWord (Candidate.winners p modifierRounds 0 start candidates))

end StakeChain
