import EcmaPhp.Text.Split

/-! Text held in chunks, the newest first, with a count of its characters. -/
namespace EcmaPhp
namespace Chunks

/-- The text of chunks, oldest chunk first. -/
def join (held : List (List Char)) : List Char := held.reverse.flatten

@[simp] theorem join_nil : join [] = [] := rfl

theorem length_join_nil : 0 = (join []).length := rfl

@[simp] theorem join_cons (c : List Char) (older : List (List Char)) :
    join (c :: older) = join older ++ c := by
  simp [join]

/-- Whole chunks from the end, as many as it takes to reach a length. -/
def joinLast (size : Nat) : List (List Char) → List Char
  | [] => []
  | c :: older => if size ≤ c.length then c else joinLast (size - c.length) older ++ c

/-- Drops characters from the end. -/
def dropEnd : Nat → List (List Char) → List (List Char)
  | 0, chunks => chunks
  | _, [] => []
  | size + 1, c :: older =>
    if c.length ≤ size + 1 then dropEnd (size + 1 - c.length) older
    else c.take (c.length - (size + 1)) :: older

theorem join_dropEnd (size : Nat) (held : List (List Char)) :
    join (dropEnd size held) = (join held).take ((join held).length - size) := by
  induction held generalizing size with
  | nil => cases size <;> simp [dropEnd]
  | cons c older ih =>
    cases size with
    | zero => rw [dropEnd, Nat.sub_zero, List.take_length]
    | succ size =>
      rw [dropEnd, join_cons, List.length_append]
      split
      · rename_i h
        rw [ih, List.take_append_of_le_length (by omega)]
        congr 1
        omega
      · rename_i h
        rw [join_cons, List.take_append, List.take_of_length_le (l := join older) (by omega)]
        congr 2
        omega

/-- Drops the blanks at the end, and says how many there were. -/
def trimEnd : List (List Char) → List (List Char) × Nat
  | [] => ([], 0)
  | c :: older =>
    match Text.trimEnd Text.isBlank c with
    | [] => ((trimEnd older).1, (trimEnd older).2 + c.length)
    | kept => (kept :: older, c.length - kept.length)

theorem length_trimEnd (held : List (List Char)) :
    (join (trimEnd held).1).length = (join held).length - (trimEnd held).2 := by
  induction held with
  | nil => rfl
  | cons c older ih =>
    have hle : (Text.trimEnd Text.isBlank c).length ≤ c.length := by
      simpa [Text.trimEnd] using (List.dropWhile_suffix Text.isBlank (l := c.reverse)).length_le
    rw [trimEnd, join_cons, List.length_append]
    split
    · simp only [ih]
      omega
    · simp only [join_cons, List.length_append]
      omega

/-- Puts text at an offset, given the chunks oldest first: the first chunk that reaches the offset
is cut in two. -/
def splice (text : List Char) : Nat → List (List Char) → List (List Char)
  | _, [] => [text]
  | offset, c :: newer =>
    if offset ≤ c.length then c.take offset :: text :: c.drop offset :: newer
    else c :: splice text (offset - c.length) newer

theorem flatten_splice (cs : List Char) (offset : Nat) (chunks : List (List Char)) :
    (splice cs offset chunks).flatten =
      chunks.flatten.take offset ++ cs ++ chunks.flatten.drop offset := by
  induction chunks generalizing offset with
  | nil => simp [splice]
  | cons c newer ih =>
    rw [splice]
    split
    · rename_i h
      simp [List.take_append_of_le_length h, List.drop_append_of_le_length h]
    · rename_i h
      have hle : c.length ≤ offset := by omega
      simp [ih, List.take_append, List.drop_append, List.take_of_length_le hle,
        List.drop_of_length_le hle]

end Chunks

/-- Chunks of text, the newest first. The number of their characters is kept beside them, so that
nothing has to be joined to know it. -/
structure Chunks where
  held : List (List Char) := []
  length : Nat := 0
  length_eq : length = (Chunks.join held).length := by exact Chunks.length_join_nil
  deriving DecidableEq, Repr

namespace Chunks

def text (chunks : Chunks) : List Char := join chunks.held

def isEmpty (chunks : Chunks) : Bool := chunks.held.isEmpty

def lastChunks (size : Nat) (chunks : Chunks) : List Char := joinLast size chunks.held

def push (chunks : Chunks) (text : List Char) : Chunks where
  held := text :: chunks.held
  length := chunks.length + text.length
  length_eq := by simp [chunks.length_eq]

/-- Drops characters from the end. -/
def dropLast (size : Nat) (chunks : Chunks) : Chunks where
  held := dropEnd size chunks.held
  length := chunks.length - size
  length_eq := by
    rw [join_dropEnd, List.length_take, chunks.length_eq]
    omega

/-- Drops the blanks at the end. -/
def trimBlanks (chunks : Chunks) : Chunks where
  held := (trimEnd chunks.held).1
  length := chunks.length - (trimEnd chunks.held).2
  length_eq := by rw [length_trimEnd, chunks.length_eq]

/-- Puts text at an offset. -/
def insertAt (chunks : Chunks) (offset : Nat) (text : List Char) : Chunks where
  held := (splice text offset chunks.held.reverse).reverse
  length := chunks.length + text.length
  length_eq := by
    rw [join, List.reverse_reverse, flatten_splice, chunks.length_eq, join]
    simp only [List.length_append, List.length_take, List.length_drop]
    omega

end Chunks
end EcmaPhp
