/-!
A queue between one producer and one consumer: what is put in comes out in the same order. Items that
are left when the producer goes can still be taken; when the consumer goes they are lost. -/

namespace TreeReplica

structure Queue (α : Type) where
  items : List α
  /-- Whether there is still a producer, and a consumer. -/
  producer : Bool
  consumer : Bool
  deriving DecidableEq, Repr

namespace Queue

def new : Queue α := ⟨[], true, true⟩

/-- Adds an item at the end, if there is a consumer for it. -/
def enqueue (q : Queue α) (a : α) : Bool × Queue α :=
  if q.consumer then (true, { q with items := q.items ++ [a] }) else (false, q)

/-- Takes the item that has waited longest. -/
def dequeue (q : Queue α) : Option α × Queue α :=
  match q.items with
  | [] => (none, q)
  | a :: rest => (some a, { q with items := rest })

def dropProducer (q : Queue α) : Queue α := { q with producer := false }

def dropConsumer (q : Queue α) : Queue α := { q with items := [], consumer := false }

end Queue

end TreeReplica
