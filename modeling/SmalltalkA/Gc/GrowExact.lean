import SmalltalkA.Gc.GrowRoots

/-! What `sta_heap_grow` does to the words of a heap: every payload word that looks like an address
in the old region is patched. -/

set_option autoImplicit false

namespace SmalltalkA

open Layout List Option

def Obj.size (obj : Obj) : Nat := alignedSize obj.payload.length

/-- The objects of a heap, end to end in the order of their addresses. -/
structure Contents (heap : Heap) (m : Memory) (objs : List Obj) : Prop where
  used : heap.used = extent Obj.size objs
  object : ∀ n obj,(n,obj) ∈ listing Obj.size heap.base objs → m n = some obj
  only : ∀ (n : Nat) obj,heap.base ≤ n → n < heap.base + heap.used → m n = some obj →
    (n,obj) ∈ listing Obj.size heap.base objs

/-- The `memcpy` of the used part. -/
def Memory.copied (m : Memory) (heap : Heap) (newBase : Nat) : Memory := fun o =>
  if newBase ≤ o ∧ o < newBase + heap.used then m (o - newBase + heap.base) else m o

/-- The loop over the objects of the new region, from `scan` on. -/
def fixupObjects (old : Heap) (newBase : Nat) : Nat → Nat → Memory → Option Memory
  | 0,_,_ => none
  | fuel + 1,scan,m =>
    if scan < newBase + old.used then do
      let obj ← m scan
      fixupObjects old newBase fuel (scan + obj.size)
        (m.put scan (some (obj.relocated old newBase)))
    else some m

/-- `memcpy`, loop and `free`. -/
def growMemory (m : Memory) (heap : Heap) (newBase : Nat) : Option Memory :=
  (fixupObjects heap newBase (heap.used + 1) newBase (m.copied heap newBase)).map
    (fun m => m.free heap.base heap.capacity)

/-- The object with its references shifted and everything else as it was. -/
def Obj.shifted (formats : Formats) (heap : Heap) (newBase : Nat) (obj : Obj) : Obj :=
  { obj with payload := (obj.references formats).map (relocate heap.base heap.used newBase) ++
    obj.payload.drop (gcScannableSlots formats obj) }

/-- No raw word has the bits of a pointer into the used part of the heap. -/
def Obj.RawElsewhere (formats : Formats) (heap : Heap) (obj : Obj) : Prop :=
  ∀ v ∈ obj.payload.drop (gcScannableSlots formats obj),
    ¬ (isHeap v = true ∧ v ≠ 0 ∧ heap.base ≤ v ∧ v < heap.base + heap.used)

instance (formats : Formats) (heap : Heap) (obj : Obj) :
    Decidable (obj.RawElsewhere formats heap) :=
  inferInstanceAs (Decidable (∀ v ∈ obj.payload.drop (gcScannableSlots formats obj),
    ¬ (isHeap v = true ∧ v ≠ 0 ∧ heap.base ≤ v ∧ v < heap.base + heap.used)))

section

variable {formats : Formats} {heap : Heap} {m : Memory} {objs : List Obj} {newBase capacity : Nat}

theorem relocated_size (obj : Obj) : (obj.relocated heap newBase).size = obj.size := by
  simp [Obj.size,Obj.relocated]

theorem shifted_size (obj : Obj) : (obj.shifted formats heap newBase).size = obj.size := by
  have : (obj.shifted formats heap newBase).payload.length = obj.payload.length := by
    simp [Obj.shifted,Obj.references]
    omega
  rw [Obj.size,this]
  rfl

theorem fixupObjects_spec (fuel pos : Nat) (m : Memory) (hend : pos + extent Obj.size objs = newBase + heap.used)
    (hobj : ∀ n obj,(n,obj) ∈ listing Obj.size pos objs → m n = some obj)
    (hfuel : extent Obj.size objs < fuel) :
    ∃ m',fixupObjects heap newBase fuel pos m = some m' ∧
      (∀ n obj,(n,obj) ∈ listing Obj.size pos objs → m' n = some (obj.relocated heap newBase)) ∧
      ∀ n,(∀ obj,(n,obj) ∉ listing Obj.size pos objs) → m' n = m n := by
  induction objs generalizing fuel pos m with
  | nil =>
    obtain ⟨fuel,rfl⟩ : ∃ k,fuel = k + 1 := ⟨fuel - 1,by omega⟩
    simp only [extent,Nat.add_zero] at hend
    exact ⟨m,by simp [fixupObjects,hend],fun _ _ hn => absurd hn not_mem_nil,fun _ _ => rfl⟩
  | cons a objs ih =>
    obtain ⟨fuel,rfl⟩ : ∃ k,fuel = k + 1 := ⟨fuel - 1,by omega⟩
    have hpos : 0 < a.size := alignedSize_pos _
    simp only [extent] at hend hfuel
    have hnext : ∀ n obj,(n,obj) ∈ listing Obj.size (pos + a.size) objs → n ≠ pos := by
      intro n obj hn
      have := (listing_bounds _ hn).1
      omega
    obtain ⟨m',hrun,hmoved,hkept⟩ := ih fuel (pos + a.size)
      (m.put pos (some (a.relocated heap newBase))) (by omega)
      (fun n obj hn => by
        rw [Memory.put_other (hnext n obj hn)]
        exact hobj n obj (mem_cons_of_mem _ hn)) (by omega)
    refine ⟨m',?_,fun n obj hn => ?_,fun n hn => ?_⟩
    · rw [fixupObjects,if_pos (by omega),hobj pos a mem_cons_self]
      exact hrun
    · rcases mem_cons.mp hn with heq | hn
      · cases heq
        rw [hkept pos (fun obj hn => hnext pos obj hn rfl),Memory.put_same]
      · exact hmoved n obj hn
    · simp only [listing,mem_cons,not_or] at hn
      rw [hkept n (fun obj => (hn obj).2)]
      exact Memory.put_other (fun he => (hn a).1 (congrArg (·,a) he)) _

variable (hc : Contents heap m objs) (hregion : FreshRegion m heap newBase capacity)
  (hroom : heap.used ≤ capacity)

include hc

theorem Contents.mem_rebased {n : Nat} {obj : Obj} : (n,obj) ∈ listing Obj.size newBase objs ↔
      newBase ≤ n ∧ n < newBase + heap.used ∧ m (n - newBase + heap.base) = some obj := by
  constructor
  · intro hn
    obtain ⟨hlo,hhi⟩ := listing_bounds _ hn
    have hpos : 0 < obj.size := alignedSize_pos _
    have hused := hc.used
    exact ⟨hlo,by omega,hc.object _ _ (listing_rebase _ _ hn)⟩
  · rintro ⟨hlo,hhi,hobj⟩
    have hin := listing_rebase Obj.size newBase (hc.only _ obj (by omega) (by omega) hobj)
    rwa [show n - newBase + heap.base - heap.base + newBase = n by omega] at hin

/-- The loop gets to every object: growing moves the memory as a whole. -/
theorem growMemory_eq_move (hregion : FreshRegion m heap newBase capacity)
    (hroom : heap.used ≤ capacity) : growMemory m heap newBase = some (m.move heap newBase) := by
  have hcopied : ∀ n obj,(n,obj) ∈ listing Obj.size newBase objs →
      m.copied heap newBase n = some obj := by
    intro n obj hn
    obtain ⟨hlo,hhi,hobj⟩ := hc.mem_rebased.mp hn
    rw [Memory.copied,if_pos ⟨hlo,hhi⟩,hobj]
  obtain ⟨m',hrun,hmoved,hkept⟩ := fixupObjects_spec (heap.used + 1) newBase _
    (by rw [hc.used]) hcopied (by rw [hc.used]; omega)
  rw [growMemory,hrun,map_some,some.injEq]
  funext n
  by_cases hin : newBase ≤ n ∧ n < newBase + heap.used
  · have hout := hregion.apart n hin.1 (Nat.lt_of_lt_of_le hin.2 (Nat.add_le_add_left hroom _))
    rw [Memory.free_outside hout,Memory.move,if_pos hin]
    cases hobj : m (n - newBase + heap.base) with
    | some obj => exact hmoved n obj (hc.mem_rebased.mpr ⟨hin.1,hin.2,hobj⟩)
    | none =>
      rw [hkept n (fun obj hn => ?_),Memory.copied,if_pos hin,hobj]
      · rfl
      · simp [(hc.mem_rebased.mp hn).2.2] at hobj
  · have hsame : m' n = m n := by
      rw [hkept n (fun obj hn => ?_),Memory.copied,if_neg hin]
      exact hin ⟨(hc.mem_rebased.mp hn).1,(hc.mem_rebased.mp hn).2.1⟩
    rw [Memory.move,if_neg hin,Memory.free,Memory.free,hsame]

theorem Contents.moved (capacity : Nat) {f : Obj → Obj} (hf : ∀ obj,(f obj).size = obj.size)
    (hsame : ∀ obj ∈ objs,obj.relocated heap newBase = f obj) :
    Contents (grownHeap heap newBase capacity) (m.move heap newBase) (objs.map f) := by
  have hmem : ∀ n obj,(n,obj) ∈ listing Obj.size newBase (objs.map f) ↔
      ∃ a,(n,a) ∈ listing Obj.size newBase objs ∧ f a = obj := by
    intro n obj
    rw [listing_map _ hf]
    simp
  refine ⟨?_,fun n obj hn => ?_,fun n obj hlo hhi hobj => ?_⟩
  · rw [extent_map,extent_congr _ (fun a _ => hf a)]
    exact hc.used
  · obtain ⟨a,ha,rfl⟩ := (hmem n obj).mp hn
    obtain ⟨hlo,hhi,hobj⟩ := hc.mem_rebased.mp ha
    rw [Memory.move,if_pos ⟨hlo,hhi⟩,hobj,← hsame a (mem_of_mem_listing _ ha)]
    rfl
  · rw [Memory.move,if_pos ⟨hlo,hhi⟩,map_eq_some_iff] at hobj
    obtain ⟨a,ha,rfl⟩ := hobj
    have hin := hc.mem_rebased.mpr ⟨hlo,hhi,ha⟩
    exact (hmem _ _).mpr ⟨a,hin,(hsame a (mem_of_mem_listing _ hin)).symm⟩

omit hc in
theorem relocated_eq_shifted_iff (hne : newBase ≠ heap.base) (obj : Obj) :
    obj.relocated heap newBase = obj.shifted formats heap newBase ↔
      obj.RawElsewhere formats heap := by
  have hsplit : (obj.relocated heap newBase).payload =
      (obj.references formats).map (relocate heap.base heap.used newBase) ++
        (obj.payload.drop (gcScannableSlots formats obj)).map
          (relocate heap.base heap.used newBase) := by
    rw [← map_append,Obj.references,take_append_drop]
    rfl
  have hword : ∀ v : Nat,relocate heap.base heap.used newBase v = v ↔
      ¬ (isHeap v = true ∧ v ≠ 0 ∧ heap.base ≤ v ∧ v < heap.base + heap.used) := by
    intro v
    unfold relocate
    split
    · next h =>
      have hlo : heap.base ≤ v := h.2.2.1
      refine iff_of_false (fun heq => hne ?_) (not_not.mpr h)
      have : v - heap.base + newBase = v := heq
      omega
    · next h => exact iff_of_true rfl h
  have heq : obj.relocated heap newBase = obj.shifted formats heap newBase ↔
      (obj.relocated heap newBase).payload = (obj.shifted formats heap newBase).payload :=
    ⟨fun h => h ▸ rfl,fun h => by simpa [Obj.relocated,Obj.shifted] using h⟩
  rw [heq,hsplit,Obj.shifted,append_cancel_left_eq]
  nth_rewrite 2 [← List.map_id (obj.payload.drop (gcScannableSlots formats obj))]
  rw [map_inj_left]
  exact forall₂_congr (fun v _ => hword v)

end

/-- Growing a heap keeps its objects in order, with headers, raw words and all other words but the
references into the heap, which are shifted, exactly if no raw word looks like such a reference. -/
theorem heap_growth_iff (formats : Formats) {s : ActorSpace} {objs : List Obj}
    {newBase : Nat} (minCapacity : Nat) {regions : List (Option Nat)} (hc : Contents s.heap s.mem objs)
    (hused : s.heap.used ≤ s.heap.capacity)
    (hgrow : s.heap.capacity < (minCapacity + 15) / 16 * 16)
    (hregions : s.regions = some newBase :: regions)
    (hregion : FreshRegion s.mem s.heap newBase ((minCapacity + 15) / 16 * 16)) :
    ∃ t,staHeapGrow s minCapacity = (t,true) ∧ growMemory s.mem s.heap newBase = some t.mem ∧
      t.heap = ⟨newBase,(minCapacity + 15) / 16 * 16,s.heap.used⟩ ∧ t.roots = s.roots ∧
      (Contents t.heap t.mem (objs.map (Obj.shifted formats s.heap newBase)) ↔
        ∀ obj ∈ objs,obj.RawElsewhere formats s.heap) := by
  have hne : ∀ obj ∈ objs,newBase ≠ s.heap.base := by
    intro obj hobj
    obtain ⟨n,hn⟩ := mem_listing_of_mem Obj.size hobj s.heap.base
    have hsize := (listing_bounds _ hn).2
    have hpos : 0 < obj.size := alignedSize_pos _
    have hlow := (listing_bounds _ hn).1
    have := hc.used
    have := hregion.apart newBase (Nat.le_refl _) (by omega)
    omega
  refine ⟨{ s with
    heap := ⟨newBase,(minCapacity + 15) / 16 * 16,s.heap.used⟩
    mem := s.mem.move s.heap newBase
    regions := regions },?_,growMemory_eq_move hc hregion (by omega),rfl,rfl,fun h obj hobj => ?_,
    fun h => ?_⟩
  · simp [staHeapGrow,Nat.not_le.mpr hgrow,ActorSpace.nextRegion,hregions]
  · refine (relocated_eq_shifted_iff (hne obj hobj) obj).mp ?_
    obtain ⟨n,hn⟩ := mem_listing_of_mem Obj.size hobj newBase
    have hplace : ∀ {f : Obj → Obj},(∀ a,(f a).size = a.size) →
        (n,f obj) ∈ listing Obj.size newBase (objs.map f) := by
      intro f hf
      rw [listing_map _ hf]
      exact List.mem_map.mpr ⟨_,hn,rfl⟩
    have hnow := (hc.moved 0 relocated_size (fun _ _ => rfl)).object n _ (hplace relocated_size)
    exact Option.some.inj (hnow.symm.trans (h.object n _ (hplace shifted_size)))
  · exact hc.moved _ shifted_size (fun obj hobj =>
      (relocated_eq_shifted_iff (hne obj hobj) obj).mpr (h obj hobj))

/-! A String whose eight bytes are those of its own address. -/

def stringFormats : Formats := fun _ => some (smallIntOop (fmtVariableByte * 256))

def stringActor (word : Oop) : ActorSpace where
  heap := ⟨4096,32,32⟩
  mem := fun o => if o = 4096 then some ⟨clsString,0,0,0,[word]⟩ else none
  roots := []
  regions := [some 8192]

theorem stringActor_contents (word : Oop) :
    Contents (stringActor word).heap (stringActor word).mem [⟨clsString,0,0,0,[word]⟩] := by
  refine ⟨by simp [stringActor,extent,Obj.size,alignedSize,allocSize],fun n obj hn => ?_,
    fun n obj _ _ hobj => ?_⟩
  · obtain ⟨rfl,rfl⟩ := Prod.mk.inj (mem_singleton.mp hn)
    rfl
  · simp only [stringActor] at hobj
    split at hobj
    · next hn =>
      cases hobj
      subst hn
      exact mem_singleton.mpr rfl
    · cases hobj

theorem heap_growth_keeps_string : ∃ t,staHeapGrow (stringActor 24930) 64 = (t,true) ∧
    Contents t.heap t.mem [⟨clsString,0,0,0,[24930]⟩] := by
  obtain ⟨t,hgrow,-,-,-,hiff⟩ := heap_growth_iff stringFormats 64
    (stringActor_contents 24930) (by decide) (by decide) rfl (by constructor <;> decide)
  exact ⟨t,hgrow,hiff.mpr (by decide)⟩

/-- The bytes of the String are changed. -/
theorem growth_patches_string : ∃ t,staHeapGrow (stringActor 4096) 64 = (t,true) ∧
    gcScannableSlots stringFormats ⟨clsString,0,0,0,[4096]⟩ = 0 ∧
    t.mem t.heap.base = some ⟨clsString,0,0,0,[8192]⟩ ∧
    ¬ Contents t.heap t.mem [⟨clsString,0,0,0,[4096]⟩] := by
  have hmem : (staHeapGrow (stringActor 4096) 64).1.mem 8192 =
      some ⟨clsString,0,0,0,[8192]⟩ := by decide
  refine ⟨_,rfl,by decide,hmem,fun h => ?_⟩
  have hsame := h.object 8192 ⟨clsString,0,0,0,[4096]⟩ (by decide)
  exact absurd (hmem.symm.trans hsame) (by decide)

end SmalltalkA
