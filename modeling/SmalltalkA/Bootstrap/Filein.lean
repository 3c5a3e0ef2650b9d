import Mathlib.Data.List.Basic

/-! The chunks of a source file (`filein.c`): a chunk ends at a single `!`, and two of them stand
for one. -/

set_option autoImplicit false

namespace SmalltalkA

open List

/-- What `next_chunk` skips in front of a chunk. -/
def isChunkBlank (c : Char) : Bool := c == '\n' || c == '\r' || c == ' ' || c == '\t'

/-- The loop over the source: the text, and the position after the chunk. -/
def scanChunk : Nat → List Char → List Char × Nat
  | i,[] => ([],i)
  | i,'!' :: '!' :: rest => ('!' :: (scanChunk (i + 2) rest).1,(scanChunk (i + 2) rest).2)
  | i,'!' :: _ => ([],i + 1)
  | i,c :: rest => (c :: (scanChunk (i + 1) rest).1,(scanChunk (i + 1) rest).2)

/-- `next_chunk`: the chunk, none for `NULL`, and the new position. -/
def nextChunk (source : List Char) (pos : Nat) : Option (List Char) × Nat :=
  if source.length ≤ pos then (none,pos)
  else
    let start := pos + ((source.drop pos).takeWhile isChunkBlank).length
    if source.length ≤ start then (none,start)
    else
      let chunk := scanChunk start (source.drop start)
      (some chunk.1,chunk.2)

/-- What a number of calls return. -/
def nextChunks (source : List Char) : Nat → Nat → List (Option (List Char) × Nat)
  | 0,_ => []
  | n + 1,pos => nextChunk source pos :: nextChunks source n (nextChunk source pos).2

def doubleMarks (text : List Char) : List Char :=
  text.flatMap fun c => if c = '!' then ['!','!'] else [c]

def writeChunk (text : List Char) : List Char := doubleMarks text ++ ['!','\n']

variable {source blank text rest : List Char} {pos : Nat}

theorem scanChunk_doubleMarks (text rest : List Char) (i : Nat) :
    scanChunk i (doubleMarks text ++ '!' :: '\n' :: rest) =
      (text,i + (doubleMarks text).length + 1) := by
  induction text generalizing i with
  | nil => simp [doubleMarks,scanChunk]
  | cons c text ih =>
    unfold doubleMarks at ih ⊢
    by_cases hc : c = '!'
    · simp [hc,scanChunk,ih]
      omega
    · simp [hc,scanChunk,ih]
      omega

/-- The calls find a chunk behind blanks, and stop at the newline after it. -/
theorem nextChunk_writeChunk (hdrop : source.drop pos = blank ++ (writeChunk text ++ rest))
    (hblank : ∀ c ∈ blank,isChunkBlank c) (htext : text.head?.all fun c => !isChunkBlank c) :
    ∃ next,nextChunk source pos = (some text,next) ∧ pos < next ∧
      source.drop next = '\n' :: rest := by
  have hlen : (source.drop pos).length = source.length - pos := length_drop
  have hstop : ((writeChunk text ++ rest).takeWhile isChunkBlank) = [] := by
    cases text with
    | nil => simp [writeChunk,doubleMarks,isChunkBlank]
    | cons c text =>
      by_cases hc : c = '!'
      · simp [writeChunk,doubleMarks,hc,isChunkBlank]
      · have hblank : isChunkBlank c = false := by simpa using htext
        simp [writeChunk,doubleMarks,hc,hblank]
  have hskip : (source.drop pos).takeWhile isChunkBlank = blank := by
    rw [hdrop,takeWhile_append_of_pos hblank,hstop,append_nil]
  have hstart : source.drop (pos + blank.length) = writeChunk text ++ rest := by
    rw [← drop_drop,hdrop,drop_left]
  have hchunk := scanChunk_doubleMarks text rest (pos + blank.length)
  refine ⟨pos + blank.length + (doubleMarks text).length + 1,?_,by omega,?_⟩
  · rw [hdrop] at hlen
    simp only [length_append,writeChunk,length_cons] at hlen
    unfold nextChunk
    rw [if_neg (by omega),hskip,if_neg (by omega),hstart]
    simp [writeChunk,hchunk]
  · rw [Nat.add_assoc,← drop_drop,hstart]
    simp [writeChunk,drop_append]

theorem nextChunks_writeChunk {texts : List (List Char)}
    (htexts : ∀ t ∈ texts,t.head?.all fun c => !isChunkBlank c) :
    ∀ {pos : Nat} {blank : List Char},source.drop pos = blank ++ texts.flatMap writeChunk →
      (∀ c ∈ blank,isChunkBlank c) →
      (nextChunks source (texts.length + 1) pos).map Prod.fst = texts.map some ++ [none] ∧
      (blank ++ texts.flatMap writeChunk ≠ [] →
        IsChain (· < ·) (pos :: (nextChunks source (texts.length + 1) pos).map Prod.snd)) := by
  induction texts with
  | nil =>
    intro pos blank hdrop hblank
    have hlen := congrArg length hdrop
    simp only [flatMap_nil,append_nil,length_drop] at hlen
    have hskip : (source.drop pos).takeWhile isChunkBlank = blank := by
      rw [hdrop,takeWhile_append_of_pos hblank]
      simp
    have hend : nextChunk source pos = (none,pos + blank.length) := by
      unfold nextChunk
      split
      · rw [length_eq_zero_iff.mp (by omega : blank.length = 0)]
        rfl
      · rw [hskip,if_pos (by omega)]
    simp [nextChunks,hend,length_pos_iff]
  | cons text texts ih =>
    intro pos blank hdrop hblank
    obtain ⟨next,hnext,hlt,hrest⟩ := nextChunk_writeChunk (hdrop.trans (by rw [flatMap_cons]))
      hblank (htexts text mem_cons_self)
    obtain ⟨hfst,hsnd⟩ := @ih (fun t ht => htexts t (mem_cons_of_mem _ ht)) next ['\n'] hrest
      (by simp [isChunkBlank])
    rw [length_cons,nextChunks,hnext]
    refine ⟨by simp [hfst],fun _ => ?_⟩
    simpa using ⟨hlt,by simpa using hsnd (by simp)⟩

end SmalltalkA
