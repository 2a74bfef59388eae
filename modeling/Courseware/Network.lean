import Courseware.Table
import Courseware.Validity

/-!
# Reaching through a network

A network is a finite directed graph whose links may expire. A walk along its links holds until the
earliest end among them, and a node is reached until the latest end among all walks to it.
`widest` finds these ends by a search that passes the links of a node whenever it has found a later
end for the node; `Walk` says what a walk is, independently of any search.
-/

namespace Courseware

/-- Links from one node to another with their ends. -/
abbrev Network (ν : Type) [Key ν] [DecidableEq ν] := Table (ν × ν) Expiry

namespace Network

variable {ν : Type} [DecidableEq ν] [Key ν]

/-- A network in which no link ever ends. -/
def ofPairs (pairs : List (ν × ν)) : Network ν := Table.ofList (pairs.map fun p => (p, Expiry.never))

/-- `Walk g a b e`: the links of `g` lead from `a` to `b`, the earliest of their ends being `e`. -/
inductive Walk (g : Network ν) : ν → ν → Expiry → Prop where
  | stay (a : ν) : Walk g a a .never
  | step {a b c : ν} {e d : Expiry} : Walk g a b e → g.get? (b, c) = some d → Walk g a c (e.min d)

/-- A search on its way: the nodes reached so far, each with the latest end found for it, and those
of them whose links are still to be passed. -/
structure Search (ν : Type) [Key ν] where
  reached : Table ν Expiry
  queue : List ν

namespace Search

/-- A search that has reached its source and nothing else. -/
def start (source : ν) : Search ν := ⟨Table.empty.insert source .never, [source]⟩

/-- Whether a node is known to be reached until an end, or longer. -/
def knows (s : Search ν) (node : ν) (e : Expiry) : Bool :=
  (s.reached.get? node).any fun known => decide (e ≤ known)

/-- Reaches a node until an end. If that is news, the links of the node are to be passed again. -/
def reach (s : Search ν) (node : ν) (e : Expiry) : Search ν :=
  if s.knows node e then s else ⟨s.reached.insert node e, s.queue ++ [node]⟩

/-- Passes the links of a node, each until the earlier of its own end and that of the node. -/
def leave (links : List ((ν × ν) × Expiry)) (s : Search ν) (node : ν) : Search ν :=
  match s.reached.get? node with
  | none => s
  | some e =>
    (links.filter fun link => link.1.1 = node).foldl
      (fun s link => s.reach link.1.2 (e.min link.2)) s

/-- Takes nodes from the queue and passes their links, until the queue is empty. -/
def run (links : List ((ν × ν) × Expiry)) : Nat → Search ν → Search ν
  | 0, s => s
  | turns + 1, s =>
    match s.queue with
    | [] => s
    | node :: queue => run links turns (leave links { s with queue } node)

end Search

/-- As many turns as a search may take: a node joins the queue only with a later end than before,
and there are no ends but those of the links. -/
def turnLimit (g : Network ν) : Nat := g.size * (g.size + 1) + 1

/-- Every node reached from `source`, with the latest end among the walks to it. -/
def widest (g : Network ν) (source : ν) : Table ν Expiry :=
  ((Search.start source).run g.toList g.turnLimit).reached

/-- Whether some walk leads from `a` to `b`. -/
def reaches (g : Network ν) (a b : ν) : Bool := (g.widest a).contains b

end Network

end Courseware
