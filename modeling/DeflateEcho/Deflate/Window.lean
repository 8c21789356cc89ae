import DeflateEcho.Deflate.Backref

/-!
# Deflate/Window — the part of the output that repetitions may reach back to

Repetitions reach back at most 32768 bytes, also beyond the start of the stream, where the output
reads as zero bytes.  A `Window` holds that many of the latest bytes and now and then up to twice as
many, so that forgetting costs little.  `Window.Shows` is what it means to stand for an output, and
`shows_push` says that it stays so.
-/

namespace DeflateEcho.Deflate

/-- The latest bytes of the output, in order. -/
structure Window where
  recent : Array UInt8 := #[]

namespace Window

/-- The greatest distance of a repetition. -/
def reach : Nat := 32768

/-- The byte that is `distance` back. -/
def lookBack (w : Window) (distance : Nat) : UInt8 :=
  if distance ≤ w.recent.size then w.recent[w.recent.size - distance]?.getD 0 else 0

/-- Adds a byte, forgetting what no repetition can reach once there is as much of that again. -/
def push (w : Window) (b : UInt8) : Window :=
  if w.recent.size < 2 * reach then ⟨w.recent.push b⟩
  else ⟨(w.recent.extract reach w.recent.size).push b⟩

/-- The window stands for this output: every distance within reach gives the same byte. -/
def Shows (w : Window) (output : Bytes) : Prop :=
  ∀ distance, 1 ≤ distance → distance ≤ reach →
    w.lookBack distance = Deflate.lookBack output distance

theorem lookBack_eq (w : Window) (distance : Nat) (h : 1 ≤ distance) :
    w.lookBack distance = Deflate.lookBack w.recent.toList distance := by
  unfold lookBack Deflate.lookBack
  split
  · rename_i hle
    have h1 : w.recent.size - distance < w.recent.size := by omega
    have h2 : distance - 1 < w.recent.toList.length := by simp; omega
    rw [List.getElem?_reverse h2]
    have h3 : w.recent.toList.length - 1 - (distance - 1) = w.recent.size - distance := by
      simp; omega
    rw [h3, Array.getElem?_toList]
  · rename_i hgt
    rw [List.getElem?_eq_none (by simp; omega)]
    rfl

theorem shows_empty : Shows {} [] := by
  intro distance h _
  rw [lookBack_eq _ _ h]

/-- **Pushing a byte keeps the window true to the output.** -/
theorem shows_push {w : Window} {output : Bytes} (h : w.Shows output) (b : UInt8) :
    (w.push b).Shows (output ++ [b]) := by
  intro distance h1 hr
  have old : distance ≠ 1 → Deflate.lookBack w.recent.toList (distance - 1)
      = Deflate.lookBack output (distance - 1) := by
    intro hne
    rw [← lookBack_eq _ _ (by omega), h _ (by omega) (by omega)]
  have hr' : distance ≤ reach := hr
  rw [lookBack_eq _ _ h1, Deflate.lookBack_concat _ _ _ h1]
  unfold push
  generalize hreach : reach = r at hr'
  split
  · rw [Array.toList_push, Deflate.lookBack_concat _ _ _ h1]
    split
    · rfl
    · rename_i hne; exact old hne
  · rename_i hbig
    have hext : (w.recent.extract r w.recent.size).toList = w.recent.toList.drop r := by
      rw [Array.toList_extract, List.extract_eq_take_drop, List.take_of_length_le (by simp)]
    rw [Array.toList_push, hext, Deflate.lookBack_concat _ _ _ h1]
    split
    · rfl
    · rename_i hne
      rw [← old hne, Deflate.lookBack_drop _ _ _ (by omega) (by simp; omega)]

end Window

end DeflateEcho.Deflate
