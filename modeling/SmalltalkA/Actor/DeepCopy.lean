import SmalltalkA.Gc.Grow

/-! Deep copy of an object graph onto another heap (`deep_copy.c`), and the estimate of its space.
-/

set_option autoImplicit false

namespace SmalltalkA

open ObjectGraph List Option

/-- What a copy takes from its caller: `gc` in the mode that collects, memory for `room` entries in
the visited set. -/
structure CopyParams where
  formats : Formats
  gc : Option GcParams
  room : Nat

/-- `CopyCtx`. The target's heap is `space.heap`; its roots matter to the collector only. -/
structure CopyCtx where
  space : ActorSpace
  visited : List (Oop × Oop)

/-- `visited_get`. -/
def visitedGet (visited : List (Oop × Oop)) (src : Oop) : Oop := (visited.lookup src).getD 0

/-- The allocation in `copy_heap_object`; none inside for NULL. -/
def copyAlloc (p : CopyParams) (s : ActorSpace) (classIndex nwords : Nat) :
    Option (ActorSpace × Option Oop) :=
  match p.gc with
  | some gc => staHeapAllocGc gc s classIndex nwords
  | none =>
    match s.alloc classIndex nwords with
    | some (o,s) => some (s,some o)
    | none => some (s,none)

def ActorSpace.setMem (s : ActorSpace) (m : Memory) : ActorSpace := { s with mem := m }

def CopyCtx.setMem (c : CopyCtx) (m : Memory) : CopyCtx := ⟨c.space.setMem m,c.visited⟩

/-- The loop over the reference slots from slot `i` on; false once the copy has failed. -/
def copySlots (copy : Oop → CopyCtx → Option (CopyCtx × Option Oop)) (src dst : Oop) :
    Nat → Nat → CopyCtx → Option (CopyCtx × Bool)
  | 0,_,c => some (c,true)
  | k + 1,i,c => do
    let v ← c.space.mem.slot src i
    let (c,r) ← copy v c
    match r with
    | none => some (c,false)
    | some w =>
      let m ← c.space.mem.setSlot dst i w
      copySlots copy src dst k (i + 1) (c.setMem m)

/-- The `memcpy` of the words from `n` on. -/
def copyRaw (src dst : Oop) (n : Nat) (m : Memory) : Option Memory := do
  let a ← m src
  let b ← m dst
  return m.put dst (some { b with payload := b.payload.take n ++ a.payload.drop n })

/-- `copy_heap_object`; `copy` stands for `copy_oop`. -/
def copyHeapObject (p : CopyParams) (copy : Oop → CopyCtx → Option (CopyCtx × Option Oop))
    (src : Oop) (h : Obj) (c : CopyCtx) : Option (CopyCtx × Option Oop) := do
  let (s,r) ← copyAlloc p c.space h.classIndex h.payload.length
  match r with
  | none => some ({ c with space := s },none)
  | some dst =>
    if p.room ≤ c.visited.length then some ({ c with space := s },none)
    else
      let b ← s.mem dst
      let m := s.mem.put dst (some { b with reserved := h.reserved })
      let n := scannableSlots p.formats h
      let (c,ok) ← copySlots copy src dst n 0 ⟨s.setMem m,(src,dst) :: c.visited⟩
      if ok then
        let m ← copyRaw src dst n c.space.mem
        some (c.setMem m,some dst)
      else some (c,none)

/-- `copy_oop`: the copy, or none if it has failed. Following a word that leads to no object is
undefined. -/
def copyOop (p : CopyParams) : Nat → Oop → CopyCtx → Option (CopyCtx × Option Oop)
  | 0,_,_ => none
  | fuel + 1,src,c =>
    if isImmediate src ∨ src = 0 then some (c,some src)
    else
      match c.space.mem src with
      | none => none
      | some h =>
        if h.isImmutable then some (c,some src)
        else if visitedGet c.visited src ≠ 0 then some (c,some (visitedGet c.visited src))
        else copyHeapObject p (copyOop p fuel) src h c

/-- `sta_deep_copy`, `sta_deep_copy_gc` and `sta_deep_copy_to_transfer`; none inside for 0. -/
def staDeepCopy (p : CopyParams) (fuel : Nat) (root : Oop) (s : ActorSpace) :
    Option (ActorSpace × Option Oop) :=
  if isShared s.mem root then some (s,some root)
  else
    match s.mem root with
    | none => none
    | some h =>
      if p.room = 0 then some (s,none)
      else (copyHeapObject p (copyOop p fuel) root h ⟨s,[]⟩).map (fun (c,r) => (c.space,r))

/-- One word after the other with `f`, which adds to a total and to the words marked. -/
def estimateAll (f : Oop → List Oop → Option (Nat × List Oop)) :
    List Oop → List Oop → Option (Nat × List Oop)
  | [],vs => some (0,vs)
  | o :: os,vs => do
    let (n,vs) ← f o vs
    let (k,vs) ← estimateAll f os vs
    return (n + k,vs)

/-- `estimate_oop`. -/
def estimateOop (formats : Formats) (room : Nat) (m : Memory) :
    Nat → Oop → List Oop → Option (Nat × List Oop)
  | 0,_,_ => none
  | fuel + 1,o,vs =>
    if isImmediate o ∨ o = 0 then some (0,vs)
    else
      match m o with
      | none => none
      | some h =>
        if h.isImmutable ∨ o ∈ vs ∨ room ≤ vs.length then some (0,vs)
        else if scannableSlots formats h ≤ h.payload.length then do
          let (n,vs) ← estimateAll (estimateOop formats room m fuel)
            (h.payload.take (scannableSlots formats h)) (o :: vs)
          return (alignedSize h.payload.length + n,vs)
        else none

/-- `sta_deep_copy_estimate_roots`, and `sta_deep_copy_estimate` on one root. -/
def staDeepCopyEstimateRoots (formats : Formats) (room fuel : Nat) (m : Memory)
    (roots : List Oop) : Option Nat :=
  (estimateAll (estimateOop formats room m fuel) roots []).map (·.1)

/-! A copy that fits. The estimate walks the graph in the same order, so its visited words are the
keys of the copy's visited set throughout. -/

section Copy

variable {p : CopyParams} {m₀ : Memory} {T : Oop → Prop} {c c' c'' : CopyCtx}

def CopyCtx.top (c : CopyCtx) : Nat := c.space.heap.base + c.space.heap.used

/-- What the copy puts for a word: the word itself if it is shared, else the copy made of it. -/
def CopiedAs (m₀ : Memory) (visited : List (Oop × Oop)) (v w : Oop) : Prop :=
  isShared m₀ v = true ∧ w = v ∨ isShared m₀ v = false ∧ (v,w) ∈ visited

/-- The object at `b` is a finished copy of the one at `a`. -/
def Copied (formats : Formats) (m₀ m : Memory) (visited : List (Oop × Oop)) (a b : Oop) : Prop :=
  ∃ h ws,m₀ a = some h ∧
    m b = some ⟨h.classIndex,0,0,h.reserved,ws ++ h.payload.drop (scannableSlots formats h)⟩ ∧
    List.Forall₂ (CopiedAs m₀ visited) (h.payload.take (scannableSlots formats h)) ws

/-- The source graph is as it was, and `vs` are the objects that have a copy, finished or not. -/
structure Copying (m₀ : Memory) (vs : List Oop) (c : CopyCtx) : Prop where
  aligned : c.top % 16 = 0
  positive : 0 < c.top
  source : ∀ (o : Nat) (h : Obj),m₀ o = some h → c.space.mem o = some h
  free : ∀ o : Nat,c.top ≤ o → o < c.space.heap.base + c.space.heap.capacity → m₀ o = none
  keys : c.visited.map Prod.fst = vs
  values : ∀ a b : Nat,(a,b) ∈ c.visited → b ≠ 0

/-- A part of the copy takes `n` bytes, writes there and to the objects of `T` only, and finishes
the copies that it begins. -/
structure Grown (formats : Formats) (m₀ : Memory) (T : Oop → Prop) (n : Nat)
    (c c' : CopyCtx) : Prop where
  space : c'.space = { c.space with
    heap := { c.space.heap with used := c.space.heap.used + n },mem := c'.space.mem }
  same : ∀ o : Nat,¬ T o → ¬ (c.top ≤ o ∧ o < c.top + n) → c'.space.mem o = c.space.mem o
  new : ∃ new,c'.visited = new ++ c.visited ∧ (new.map Prod.snd).Nodup ∧
    ∀ a b : Nat,(a,b) ∈ new → c.top ≤ b ∧ b < c.top + n ∧ b % 16 = 0 ∧
      Copied formats m₀ c'.space.mem c'.visited a b

variable {visited : List (Oop × Oop)} {a o root : Oop} {formats : Formats} {m m' : Memory}
  {n room : Nat} {vs vs' objs : List Oop} {s : ActorSpace}
  {f : Oop → List Oop → Option (Nat × List Oop)} {h : Obj}

theorem CopiedAs.mono {visited' : List (Oop × Oop)} (h : visited ⊆ visited') {v w : Oop}
    (hvw : CopiedAs m₀ visited v w) : CopiedAs m₀ visited' v w :=
  hvw.imp_right (fun ⟨hv,hw⟩ => ⟨hv,h hw⟩)

theorem Copied.mono {visited' : List (Oop × Oop)} {b : Oop} (h : Copied formats m₀ m visited a b)
    (hm : m' b = m b) (hv : visited ⊆ visited') : Copied formats m₀ m' visited' a b := by
  obtain ⟨obj,ws,ha,hb,hws⟩ := h
  exact ⟨obj,ws,ha,hm.trans hb,hws.imp (fun _ _ hvw => hvw.mono hv)⟩

theorem Grown.top_eq (h : Grown p.formats m₀ T n c c') : c'.top = c.top + n := by
  unfold CopyCtx.top
  rw [h.space]
  exact (Nat.add_assoc ..).symm

theorem Grown.limit_eq (h : Grown p.formats m₀ T n c c') :
    c'.space.heap.base + c'.space.heap.capacity = c.space.heap.base + c.space.heap.capacity := by
  rw [h.space]

theorem Grown.visited_subset (h : Grown p.formats m₀ T n c c') : c.visited ⊆ c'.visited := by
  obtain ⟨new,hnew,-⟩ := h.new
  rw [hnew]
  exact subset_append_right ..

theorem Grown.refl (c : CopyCtx) : Grown p.formats m₀ T 0 c c :=
  ⟨rfl,fun _ _ _ => rfl,[],rfl,nodup_nil,nofun⟩

theorem Grown.trans {k : Nat} (h : Grown p.formats m₀ T n c c') (h' : Grown p.formats m₀ T k c' c'')
    (hT : ∀ o : Nat,T o → o < c.top) :
    Grown p.formats m₀ T (n + k) c c'' := by
  have htop := h.top_eq
  obtain ⟨new,hnew,hdup,hall⟩ := h.new
  obtain ⟨new',hnew',hdup',hall'⟩ := h'.new
  refine ⟨?_,fun o hoT ho => ?_,new' ++ new,?_,?_,fun a b hab => ?_⟩
  · rw [h'.space,h.space]
    simp [Nat.add_assoc]
  · rw [h'.same o hoT (by omega),h.same o hoT (by omega)]
  · rw [hnew',hnew,append_assoc]
  · rw [map_append]
    refine List.Nodup.append hdup' hdup (fun b hb hb' => ?_)
    -- the second part's copies lie above the first part's
    obtain ⟨⟨a,b⟩,hq,rfl⟩ := List.mem_map.mp hb
    obtain ⟨⟨a',b'⟩,hq',rfl⟩ := List.mem_map.mp hb'
    have h₁ := hall' _ _ hq
    have h₂ := hall _ _ hq'
    omega
  · rcases mem_append.mp hab with hq | hq
    · obtain ⟨hlo,hhi,hal,hcop⟩ := hall' a b hq
      exact ⟨by omega,by omega,hal,hcop⟩
    · obtain ⟨hlo,hhi,hal,hcop⟩ := hall a b hq
      have hbT : ¬ T b := fun ht => absurd (hT _ ht) (by omega)
      exact ⟨hlo,by omega,hal,hcop.mono (h'.same _ hbT (by omega)) h'.visited_subset⟩

theorem Copying.grown (hc : Copying m₀ vs c) (h : Grown p.formats m₀ T n c c') (hn : n % 16 = 0)
    (hT : ∀ o,T o → m₀ o = none) (hfit : c.space.heap.used + n ≤ c.space.heap.capacity)
    (hkeys : c'.visited.map Prod.fst = vs') : Copying m₀ vs' c' := by
  have htop := h.top_eq
  have hlim := h.limit_eq
  have hal := hc.aligned
  have hpos := hc.positive
  refine ⟨by omega,by omega,fun o obj ho => ?_,fun o hlo hhi => ?_,hkeys,fun a b hab => ?_⟩
  · rw [h.same o (fun ht => ?_) (fun hr => ?_)]
    · exact hc.source o obj ho
    · simp [hT o ht] at ho
    · have hlim : o < c.space.heap.base + c.space.heap.capacity := by
        have := hr.2
        unfold CopyCtx.top at this
        omega
      simp [hc.free o hr.1 hlim] at ho
  · exact hc.free o (by omega) (by omega)
  · obtain ⟨new,hnew,-,hall⟩ := h.new
    rw [hnew] at hab
    rcases mem_append.mp hab with hab | hab
    · have := (hall a b hab).1
      omega
    · exact hc.values a b hab

theorem visitedGet_eq_zero (h : a ∉ visited.map Prod.fst) : visitedGet visited a = 0 := by
  unfold visitedGet
  rw [lookup_eq_none_iff.mpr]
  · rfl
  · intro q hq
    exact bne_iff_ne.mpr (fun he => h (List.mem_map.mpr ⟨q,hq,he.symm⟩))

theorem visitedGet_mem (h : a ∈ visited.map Prod.fst) : (a,visitedGet visited a) ∈ visited := by
  induction visited with
  | nil => cases h
  | cons q visited ih =>
    obtain ⟨k,v⟩ := q
    by_cases hk : a = k
    · subst hk
      simp [visitedGet]
    · have hmem : a ∈ visited.map Prod.fst := by
        simpa [hk] using h
      have hget : visitedGet ((k,v) :: visited) a = visitedGet visited a := by
        simp [visitedGet,lookup_cons,beq_eq_false_iff_ne.mpr hk]
      rw [hget]
      exact mem_cons_of_mem _ (ih hmem)

theorem copyAlloc_fits {k : Nat} (h : s.heap.used + alignedSize n ≤ s.heap.capacity) :
    copyAlloc p s k n = some ({ s with
      heap := { s.heap with used := s.heap.used + alignedSize n }
      mem := s.mem.put (s.heap.base + s.heap.used) (some (newObj k n)) },
      some (s.heap.base + s.heap.used)) := by
  have hnot : ¬ s.heap.used + alignedSize n > s.heap.capacity := by omega
  unfold copyAlloc
  cases p.gc <;> simp [staHeapAllocGc,ActorSpace.alloc,heapAlloc,hnot]

def Marks (f : Oop → List Oop → Option (Nat × List Oop)) : Prop :=
  ∀ o vs n vs',f o vs = some (n,vs') → n % 16 = 0 ∧ vs <:+ vs' ∧ (vs.Nodup → vs'.Nodup)

theorem Marks.all (hf : Marks f) {os : List Oop} (h : estimateAll f os vs = some (n,vs')) :
    n % 16 = 0 ∧ vs <:+ vs' ∧ (vs.Nodup → vs'.Nodup) := by
  induction os generalizing vs n with
  | nil =>
    cases h
    exact ⟨rfl,suffix_rfl,id⟩
  | cons o os ih =>
    simp only [estimateAll,bind_eq_bind,bind_eq_some_iff,Option.pure_def,
      some.injEq,Prod.mk.injEq,Prod.exists] at h
    obtain ⟨k,us,hk,l,ws,hl,rfl,rfl⟩ := h
    obtain ⟨hk₁,hk₂,hk₃⟩ := hf o vs k us hk
    obtain ⟨hl₁,hl₂,hl₃⟩ := ih hl
    exact ⟨by omega,hk₂.trans hl₂,fun hd => hl₃ (hk₃ hd)⟩

theorem estimateOop_marks (formats : Formats) (room : Nat) (m : Memory) (fuel : Nat) :
    Marks (estimateOop formats room m fuel) := by
  induction fuel with
  | zero =>
    intro o vs n vs' h
    cases h
  | succ fuel ih =>
    intro o vs n vs' h
    simp only [estimateOop] at h
    split at h
    · cases h
      exact ⟨rfl,suffix_rfl,id⟩
    · split at h
      · cases h
      · split at h
        · cases h
          exact ⟨rfl,suffix_rfl,id⟩
        · rename_i obj _ hnot
          split at h
          · simp only [bind_eq_bind,bind_eq_some_iff,Option.pure_def,
              some.injEq,Prod.mk.injEq,Prod.exists] at h
            obtain ⟨k,us,hk,rfl,rfl⟩ := h
            obtain ⟨h₁,h₂,h₃⟩ := ih.all hk
            have hsz := alignedSize_mod obj.payload.length
            refine ⟨by omega,(suffix_cons o vs).trans h₂,fun hd => h₃ ?_⟩
            exact nodup_cons.mpr ⟨fun hmem => hnot (.inr (.inl hmem)),hd⟩
          · cases h

/-- Where the space and the memory for the visited set suffice, `copy` answers what `f` has
estimated. -/
def CopiesFit (p : CopyParams) (room : Nat) (m₀ : Memory)
    (f : Oop → List Oop → Option (Nat × List Oop))
    (copy : Oop → CopyCtx → Option (CopyCtx × Option Oop)) : Prop :=
  ∀ v vs n vs' c,f v vs = some (n,vs') → Copying m₀ vs c →
    c.space.heap.used + n ≤ c.space.heap.capacity → vs'.length < room → vs'.length ≤ p.room →
    ∃ c' w,copy v c = some (c',some w) ∧ Grown p.formats m₀ (fun _ => False) n c c' ∧
      Copying m₀ vs' c' ∧ CopiedAs m₀ c'.visited v w

theorem Grown.weaken (h : Grown p.formats m₀ (fun _ => False) n c c') :
    Grown p.formats m₀ T n c c' :=
  ⟨h.space,fun o _ ho => h.same o id ho,h.new⟩

theorem Grown.store {dst : Oop} {obj : Obj} :
    Grown p.formats m₀ (· = dst) 0 c (c.setMem (c.space.mem.put dst (some obj))) :=
  ⟨rfl,fun _ ho _ => Memory.put_other ho _,[],rfl,nodup_nil,nofun⟩

theorem Memory.setSlot_some {obj : Obj} {i : Nat} (v : Oop) (h : m o = some obj)
    (hi : i < obj.payload.length) :
    m.setSlot o i v = some (m.put o (some { obj with payload := obj.payload.set i v })) := by
  simp [Memory.setSlot,h,hi]

theorem take_succ_set {α : Type} {l : List α} {i : Nat} (x : α) (hi : i < l.length) :
    (l.set i x).take (i + 1) = l.take i ++ [x] := by
  rw [take_add_one,take_set_of_le (Nat.le_refl i),getElem?_set_self hi]
  rfl

/-- The loop over the slots of `src`, of which the first `i` have been copied. -/
theorem copySlots_fits {copy : Oop → CopyCtx → Option (CopyCtx × Option Oop)} (hf : Marks f)
    (hcopy : CopiesFit p room m₀ f copy) {src dst : Nat} (hsrc : m₀ src = some h)
    (hdst : m₀ dst = none) (k i : Nat) {b : Obj}
    (hest : estimateAll f ((h.payload.drop i).take k) vs = some (n,vs')) (hc : Copying m₀ vs c)
    (hik : i + k ≤ h.payload.length) (hb : c.space.mem dst = some b)
    (hlen : b.payload.length = h.payload.length) (hlt : dst < c.top)
    (hfit : c.space.heap.used + n ≤ c.space.heap.capacity) (hroom : vs'.length < room)
    (hp : vs'.length ≤ p.room) :
    ∃ c' ws,copySlots copy src dst k i c = some (c',true) ∧
      Grown p.formats m₀ (· = dst) n c c' ∧ Copying m₀ vs' c' ∧
      c'.space.mem dst = some { b with
        payload := b.payload.take i ++ ws ++ b.payload.drop (i + k) } ∧
      List.Forall₂ (CopiedAs m₀ c'.visited) ((h.payload.drop i).take k) ws := by
  have hT : ∀ o,o = dst → m₀ o = none := fun o ho => ho ▸ hdst
  induction k generalizing i c vs n b with
  | zero =>
    simp only [take_zero,estimateAll,some.injEq,Prod.mk.injEq] at hest
    obtain ⟨rfl,rfl⟩ := hest
    exact ⟨c,[],rfl,.refl c,hc,by simp [hb],by simp⟩
  | succ k ih =>
    have hi : i < h.payload.length := by omega
    rw [drop_eq_getElem_cons hi,take_succ_cons] at hest ⊢
    simp only [estimateAll,bind_eq_bind,bind_eq_some_iff,Option.pure_def,
      some.injEq,Prod.mk.injEq,Prod.exists] at hest
    obtain ⟨n₁,us,h₁,n₂,ws',h₂,rfl,rfl⟩ := hest
    have hmark₁ := hf _ _ _ _ h₁
    have hmark₂ := hf.all h₂
    have hle := hmark₂.2.1.length_le
    obtain ⟨c₁,w,hcw,hg₁,hc₁,hw⟩ := hcopy _ _ _ _ c h₁ hc (by omega) (by omega) (by omega)
    have htop₁ := hg₁.top_eq
    have hb₁ : c₁.space.mem dst = some b := by
      rw [hg₁.same dst id (by omega),hb]
    have hset := Memory.setSlot_some w hb₁ (show i < b.payload.length by omega)
    let c₂ := c₁.setMem (c₁.space.mem.put dst (some { b with payload := b.payload.set i w }))
    have hg₂ : Grown p.formats m₀ (· = dst) 0 c₁ c₂ := .store
    have hg₁₂ := (hg₁.weaken (T := (· = dst))).trans hg₂ (fun o ho => ho ▸ hlt)
    have hc₂ : Copying m₀ us c₂ := hc₁.grown hg₂ rfl hT
      (by have := hg₁.space; rw [this]; simp only; omega) hc₁.keys
    have hused : c₂.space.heap.used + n₂ ≤ c₂.space.heap.capacity := by
      have hsp := hg₁₂.space
      rw [hsp]
      simp only
      omega
    obtain ⟨c',ws,hslots,hg₃,hc₃,hd₃,hall⟩ := ih (i + 1) h₂ hc₂ (by omega)
      (Memory.put_same ..) (by simp [hlen]) (by rw [hg₁₂.top_eq]; omega) hused
    refine ⟨c',w :: ws,?_,?_,hc₃,?_,.cons (hw.mono hg₃.visited_subset) hall⟩
    · have hslot : c.space.mem.slot src i = some h.payload[i] := by
        simp [Memory.slot,hc.source src h hsrc]
      simp [copySlots,hslot,hcw,hset,c₂] at hslots ⊢
      exact hslots
    · exact hg₁₂.trans hg₃ (fun o ho => ho ▸ hlt)
    · rw [hd₃]
      have htake := take_succ_set w (show i < b.payload.length by omega)
      simp only [htake,drop_set_of_lt (show i < i + 1 + k by omega),append_assoc,
        singleton_append,some.injEq,Obj.mk.injEq,true_and]
      rw [show i + (k + 1) = i + 1 + k by omega]

/-- `copy_heap_object` on an object that has no copy yet. -/
theorem copyHeapObject_fits {copy : Oop → CopyCtx → Option (CopyCtx × Option Oop)} (hf : Marks f)
    (hcopy : CopiesFit p room m₀ f copy) {src : Nat} (hsrc : m₀ src = some h)
    (hscan : scannableSlots p.formats h ≤ h.payload.length)
    (hest : estimateAll f (h.payload.take (scannableSlots p.formats h)) (src :: vs) = some (n,vs'))
    (hc : Copying m₀ vs c)
    (hfit : c.space.heap.used + (alignedSize h.payload.length + n) ≤ c.space.heap.capacity)
    (hroom : vs'.length < room) (hp : vs'.length ≤ p.room) :
    ∃ c',copyHeapObject p copy src h c = some (c',some c.top) ∧
      Grown p.formats m₀ (fun _ => False) (alignedSize h.payload.length + n) c c' ∧
      Copying m₀ vs' c' ∧ (src,c.top) ∈ c'.visited := by
  have hpos := alignedSize_pos h.payload.length
  have hmod := alignedSize_mod h.payload.length
  have hmark := hf.all hest
  have hlen : c.visited.length < p.room := by
    have hle := hmark.2.1.length_le
    have hkeys := congrArg List.length hc.keys
    simp only [length_cons,length_map] at hle hkeys
    omega
  have hlim : c.top < c.space.heap.base + c.space.heap.capacity := by
    unfold CopyCtx.top
    omega
  have hdst : m₀ c.top = none := hc.free c.top (Nat.le_refl _) hlim
  -- the copy after its header has been set up
  let b : Obj := { newObj h.classIndex h.payload.length with reserved := h.reserved }
  let c₁ : CopyCtx := ⟨{ c.space with
    heap := { c.space.heap with used := c.space.heap.used + alignedSize h.payload.length }
    mem := (c.space.mem.put c.top (some (newObj h.classIndex h.payload.length))).put c.top
      (some b) },(src,c.top) :: c.visited⟩
  have hmem₁ : ∀ o : Nat,o ≠ c.top → c₁.space.mem o = c.space.mem o := fun o ho =>
    (Memory.put_other ho _).trans (Memory.put_other ho _)
  have htop₁ : c₁.top = c.top + alignedSize h.payload.length := (Nat.add_assoc ..).symm
  have hc₁ : Copying m₀ (src :: vs) c₁ := by
    refine ⟨?_,?_,fun o obj ho => ?_,fun o hlo hhi => ?_,?_,fun x y hxy => ?_⟩
    · have := hc.aligned
      omega
    · omega
    · rw [hmem₁ o (fun he => by simp [he,hdst] at ho)]
      exact hc.source o obj ho
    · exact hc.free o (by omega) hhi
    · simp [c₁,hc.keys]
    · rcases mem_cons.mp hxy with he | hxy
      · have := hc.positive
        cases he
        omega
      · exact hc.values x y hxy
  obtain ⟨c₂,ws,hslots,hg₂,hc₂,hb₂,hws⟩ := copySlots_fits hf hcopy hsrc hdst
    (scannableSlots p.formats h) 0 (by simpa using hest) hc₁ (by omega) (Memory.put_same ..)
    (by simp [b,newObj]) (by omega) (by simp only [c₁]; omega) hroom hp
  simp only [drop_zero] at hws
  have hwslen : ws.length = scannableSlots p.formats h := by
    rw [← hws.length_eq,length_take,Nat.min_eq_left hscan]
  have htop₂ := hg₂.top_eq
  let m₃ := c₂.space.mem.put c.top (some ⟨h.classIndex,0,0,h.reserved,
    ws ++ h.payload.drop (scannableSlots p.formats h)⟩)
  have hraw : copyRaw src c.top (scannableSlots p.formats h) c₂.space.mem = some m₃ := by
    simp [copyRaw,hc₂.source src h hsrc,hb₂,m₃,b,newObj,← hwslen]
  have hmem₃ : ∀ o : Nat,o ≠ c.top → m₃ o = c₂.space.mem o := fun o ho => Memory.put_other ho _
  obtain ⟨new,hnew,hdup,hall⟩ := hg₂.new
  have hgrown : Grown p.formats m₀ (fun _ => False) (alignedSize h.payload.length + n) c
      (c₂.setMem m₃) := by
    refine ⟨?_,fun o _ ho => ?_,new ++ [(src,c.top)],?_,?_,fun x y hxy => ?_⟩
    · have hspace := hg₂.space
      change { c₂.space with mem := m₃ } = _
      rw [hspace]
      simp [CopyCtx.setMem,ActorSpace.setMem,c₁,Nat.add_assoc]
    · have hne : o ≠ c.top := by omega
      exact (hmem₃ o hne).trans ((hg₂.same o hne (by omega)).trans (hmem₁ o hne))
    · simp [CopyCtx.setMem,hnew,c₁]
    · rw [map_append]
      refine List.Nodup.append hdup (nodup_singleton _) (fun y hy hy' => ?_)
      obtain ⟨⟨x,y⟩,hxy,rfl⟩ := List.mem_map.mp hy
      have hlo := (hall x y hxy).1
      rw [map_singleton,mem_singleton] at hy'
      rw [show y = c.top from hy'] at hlo
      omega
    · rcases mem_append.mp hxy with hxy | hxy
      · obtain ⟨hlo,hhi,hal,hcop⟩ := hall x y hxy
        have hne : y ≠ c.top := by omega
        exact ⟨by omega,by omega,hal,hcop.mono (hmem₃ y hne) (List.Subset.refl _)⟩
      · cases mem_singleton.mp hxy
        exact ⟨Nat.le_refl _,by omega,hc.aligned,h,ws,hsrc,Memory.put_same ..,hws⟩
  have hgraft : (src,c.top) ∈ c₂.visited := by
    rw [hnew]
    exact mem_append_right _ mem_cons_self
  refine ⟨c₂.setMem m₃,?_,hgrown,hc.grown hgrown (by omega) nofun hfit hc₂.keys,hgraft⟩
  have halloc := copyAlloc_fits (p := p) (s := c.space) (k := h.classIndex)
    (n := h.payload.length) (by omega)
  have hput : ¬ p.room ≤ c.visited.length := by omega
  have hslots' : copySlots copy src c.top (scannableSlots p.formats h) 0 c₁ = some (c₂,true) :=
    hslots
  simp only [copyHeapObject,halloc,bind_eq_bind,bind_some,hput,if_false,Memory.put_same]
  simp only [c₁,b,CopyCtx.top] at hslots'
  simp only [ActorSpace.setMem,hslots',bind_some,if_true]
  simp only [CopyCtx.top] at hraw
  simp [hraw,CopyCtx.top]

theorem isShared_of (hm : m o = some h) (hheap : ¬ (isImmediate o = true ∨ o = 0)) :
    isShared m o = h.isImmutable := by
  rw [not_or] at hheap
  simp [isShared,hm,hheap]

/-- The copy of a word takes the space that the estimate says. -/
theorem copyOop_fits (room fuel : Nat) :
    CopiesFit p room m₀ (estimateOop p.formats room m₀ fuel) (copyOop p fuel) := by
  induction fuel with
  | zero =>
    intro v vs n vs' c h
    cases h
  | succ fuel ih =>
    intro v vs n vs' c hest hc hfit hroom hp
    simp only [estimateOop] at hest
    split at hest
    · rename_i hatom
      cases hest
      refine ⟨c,v,by simp [copyOop,hatom],.refl c,hc,.inl ⟨?_,rfl⟩⟩
      rcases hatom with hv | hv <;> simp [isShared,hv]
    · rename_i hatom
      cases hv : m₀ v with
      | none => simp [hv] at hest
      | some h =>
        have hmv := hc.source v h hv
        have hsh := isShared_of hv hatom
        simp only [hv] at hest
        by_cases himm : h.isImmutable = true
        · simp only [himm,true_or,if_true,some.injEq,Prod.mk.injEq] at hest
          obtain ⟨rfl,rfl⟩ := hest
          exact ⟨c,v,by simp [copyOop,hatom,hmv,himm],.refl c,hc,.inl ⟨hsh.trans himm,rfl⟩⟩
        · have himm' := Bool.of_not_eq_true himm
          by_cases hmem : v ∈ vs
          · -- the object has a copy already
            simp only [hmem,true_or,or_true,if_true,some.injEq,Prod.mk.injEq] at hest
            obtain ⟨rfl,rfl⟩ := hest
            have hget := visitedGet_mem (hc.keys ▸ hmem)
            have hne := hc.values _ _ hget
            exact ⟨c,_,by simp [copyOop,hatom,hmv,himm',hne],.refl c,hc,.inr ⟨hsh.trans himm',hget⟩⟩
          · have hget : visitedGet c.visited v = 0 := visitedGet_eq_zero (hc.keys ▸ hmem)
            split at hest
            · -- the estimate has run out of memory for its visited set
              rename_i hstop
              cases hest
              rcases hstop with h₁ | h₁ | h₁
              · exact absurd h₁ himm
              · exact absurd h₁ hmem
              · omega
            · split at hest
              · rename_i hscan
                simp only [bind_eq_bind,bind_eq_some_iff,Option.pure_def,
                  some.injEq,Prod.mk.injEq,Prod.exists] at hest
                obtain ⟨k,us,hk,rfl,rfl⟩ := hest
                obtain ⟨c',hcop,hg,hc',hin⟩ := copyHeapObject_fits
                  (estimateOop_marks _ _ _ fuel) ih hv hscan hk hc hfit hroom hp
                exact ⟨c',c.top,by simp [copyOop,hatom,hmv,himm',hget,hcop],hg,hc',
                  .inr ⟨hsh.trans himm',hin⟩⟩
              · cases hest

/-- Finished copies that lead to each other make an isomorphic graph. -/
theorem iso_of_copied {pairs : List (Oop × Oop)} (hkeys : (pairs.map Prod.fst).Nodup)
    (hvalues : (pairs.map Prod.snd).Nodup)
    (hall : ∀ a b : Nat,(a,b) ∈ pairs → b ≠ 0 ∧ b % 16 = 0 ∧ Copied formats m₀ m pairs a b)
    (hshared : ∀ v,isShared m₀ v = true → isShared m v = true)
    (hscan : ∀ a b h,(a,b) ∈ pairs → m₀ a = some h → h.Scannable formats) :
    Iso (mutableGraph formats m₀) (mutableGraph formats m) (fun a b => (a,b) ∈ pairs) ∧
      ∀ v w,CopiedAs m₀ pairs v w →
        Related (mutableGraph formats m₀) (mutableGraph formats m) (fun a b => (a,b) ∈ pairs) v w := by
  have hrel : ∀ v w,CopiedAs m₀ pairs v w → Related (mutableGraph formats m₀)
      (mutableGraph formats m) (fun a b => (a,b) ∈ pairs) v w := by
    rintro v w (⟨hv,rfl⟩ | ⟨hv,hin⟩)
    · exact .inl ⟨hv,hshared w hv,rfl⟩
    · obtain ⟨hne,hal,h,ws,-,hb,-⟩ := hall v w hin
      refine .inr ⟨by simp [mutableGraph,objectGraph,hv],?_,hin⟩
      have hheap : isHeap w = true := by
        unfold isHeap
        exact beq_iff_eq.mpr (Nat.mod_eq_zero_of_dvd
          (Nat.dvd_trans (by decide) (Nat.dvd_of_mod_eq_zero hal)))
      simp [mutableGraph,objectGraph,isShared,isImmediate,hheap,hne,hb,Obj.isImmutable]
  refine ⟨⟨fun a b b' hb hb' => ?_,fun a a' b ha ha' => ?_,fun a b hab => ?_⟩,hrel⟩
  · exact congrArg Prod.snd (inj_on_of_nodup_map hkeys hb hb' rfl)
  · exact congrArg Prod.fst (inj_on_of_nodup_map hvalues ha ha' rfl)
  · obtain ⟨-,-,h,ws,ha,hb,hws⟩ := hall a b hab
    have hs := hscan a b h hab ha
    have hcount : scannableSlots formats h = gcScannableSlots formats h :=
      slotsToScan_congr hs.plain rfl rfl
    have hlen : ws.length = gcScannableSlots formats h := by
      rw [← hws.length_eq,hcount,length_take,Nat.min_eq_left hs.fits]
    rw [hcount] at hb
    have hcount' : gcScannableSlots formats ⟨h.classIndex,0,0,h.reserved,
        ws ++ h.payload.drop (gcScannableSlots formats h)⟩ = ws.length := by
      rw [hlen]
      refine slotsToScan_congr hs.plain rfl ?_
      have := hs.fits
      simp only [length_append,length_drop]
      omega
    refine ⟨h.label formats,h.references formats,ws,?_,?_,?_⟩
    · simp [mutableGraph,objectGraph,ha]
    · simp [mutableGraph,objectGraph,hb,Obj.label,Obj.references,hcount']
    · rw [Obj.references,← hcount]
      exact hws.imp hrel

def GraphOk (formats : Formats) (m : Memory) (objs : List Oop) : Prop :=
  ∀ o ∈ objs,∃ h,m o = some h ∧ isShared m o = false ∧ h.Scannable formats ∧
    ∀ v ∈ h.references formats,isShared m v = true ∨ v ∈ objs

def unmarked (objs vs : List Oop) : Nat := (objs.filter (fun o => decide (o ∉ vs))).length

theorem unmarked_mono (objs : List Oop) (h : vs ⊆ vs') : unmarked objs vs' ≤ unmarked objs vs := by
  refine (monotone_filter_right objs (fun o ho => ?_)).length_le
  simp only [decide_eq_true_eq] at ho ⊢
  exact fun hmem => ho (h hmem)

theorem unmarked_cons (ho : o ∈ objs) (hvs : o ∉ vs) :
    unmarked objs (o :: vs) < unmarked objs vs := by
  have hfilter : objs.filter (fun x => decide (x ∉ o :: vs)) =
      (objs.filter (fun x => decide (x ∉ vs))).filter (fun x => decide (x ≠ o)) := by
    rw [List.filter_filter]
    congr 1
    funext x
    simp [not_or]
  unfold unmarked
  rw [hfilter]
  refine length_filter_lt_length_iff_exists.mpr ⟨o,?_,by simp⟩
  exact mem_filter.mpr ⟨ho,by simpa using hvs⟩

/-- `f` is defined on the words that lead to `objs`, and marks no other object. -/
def MarksWithin (f : Oop → List Oop → Option (Nat × List Oop)) (m : Memory) (objs : List Oop)
    (bound : Nat) : Prop :=
  ∀ v vs,isShared m v = true ∨ v ∈ objs → unmarked objs vs < bound →
    ∃ n vs',f v vs = some (n,vs') ∧ ∀ o ∈ vs',o ∈ vs ∨ o ∈ objs

theorem MarksWithin.all {bound : Nat} (hf : Marks f) (h : MarksWithin f m objs bound)
    {os : List Oop} (hos : ∀ v ∈ os,isShared m v = true ∨ v ∈ objs) (hvs : unmarked objs vs < bound)
    :
    ∃ n vs',estimateAll f os vs = some (n,vs') ∧ ∀ o ∈ vs',o ∈ vs ∨ o ∈ objs := by
  induction os generalizing vs with
  | nil => exact ⟨0,vs,rfl,fun _ ho => .inl ho⟩
  | cons v os ih =>
    obtain ⟨n,us,hn,hus⟩ := h v vs (hos v mem_cons_self) hvs
    have hsub := (hf v vs n us hn).2.1.subset
    obtain ⟨k,ws,hk,hws⟩ := ih (fun w hw => hos w (mem_cons_of_mem _ hw))
      (Nat.lt_of_le_of_lt (unmarked_mono objs hsub) hvs)
    exact ⟨n + k,ws,by simp [estimateAll,hn,hk],
      fun o ho => (hws o ho).elim (fun hu => hus o hu) .inr⟩

theorem estimateOop_defined (room : Nat) (h : GraphOk formats m objs) (fuel : Nat) :
    MarksWithin (estimateOop formats room m fuel) m objs fuel := by
  induction fuel with
  | zero =>
    intro v vs _ hvs
    exact absurd hvs (Nat.not_lt_zero _)
  | succ fuel ih =>
    intro v vs hv hvs
    by_cases hatom : isImmediate v = true ∨ v = 0
    · exact ⟨0,vs,by simp [estimateOop,hatom],fun _ ho => .inl ho⟩
    · have hheap := not_or.mp hatom
      rcases hv with hv | hv
      · cases hm : m v with
        | none => simp [isShared,hm,hheap] at hv
        | some obj =>
          rw [isShared_of hm hatom] at hv
          exact ⟨0,vs,by simp [estimateOop,hatom,hm,hv],fun _ ho => .inl ho⟩
      · obtain ⟨obj,hm,hsh,hscan,hrefs⟩ := h v hv
        rw [isShared_of hm hatom] at hsh
        by_cases hstop : v ∈ vs ∨ room ≤ vs.length
        · exact ⟨0,vs,by simp [estimateOop,hatom,hm,hstop],fun _ ho => .inl ho⟩
        · have hnot := not_or.mp hstop
          have hcount : scannableSlots formats obj = gcScannableSlots formats obj :=
            slotsToScan_congr hscan.plain rfl rfl
          have hless := unmarked_cons hv hnot.1
          obtain ⟨n,us,hn,hus⟩ := ih.all (estimateOop_marks _ _ _ fuel) hrefs
            (show unmarked objs (v :: vs) < fuel by omega)
          refine ⟨alignedSize obj.payload.length + n,us,?_,fun o ho => ?_⟩
          · rw [Obj.references] at hn
            simp [estimateOop,hatom,hm,hsh,hstop,hcount,hscan.fits,hn]
          · rcases hus o ho with ho | ho
            · exact (mem_cons.mp ho).elim (fun he => .inr (he ▸ hv)) .inl
            · exact .inr ho

theorem GraphOk.congr (h : GraphOk formats m objs) (hobjs : ∀ o ∈ objs,m' o = m o)
    (hshared : ∀ v,isShared m v = true → isShared m' v = true) : GraphOk formats m' objs := by
  intro o ho
  obtain ⟨obj,hm,hsh,hscan,hrefs⟩ := h o ho
  refine ⟨obj,(hobjs o ho).trans hm,?_,hscan,fun v hv => (hrefs v hv).imp_left (hshared v)⟩
  rw [← hsh]
  unfold isShared
  rw [hobjs o ho]

theorem GraphOk.closed (h : GraphOk formats m objs) :
    Closed (mutableGraph formats m) (· ∈ objs) := by
  intro o ho
  obtain ⟨obj,hm,-,-,hrefs⟩ := h o ho
  exact ⟨obj.label formats,obj.references formats,by simp [mutableGraph,objectGraph,hm],hrefs⟩

theorem GraphOk.kept {roots : List Oop} (h : GraphOk formats m objs) (hobjs : ∀ o ∈ objs,m' o = m o)
    (hshared : ∀ v,isShared m v = true → isShared m' v = true)
    (hroots : ∀ v ∈ roots,isShared m v = true ∨ v ∈ objs) :
    Isomorphic (mutableGraph formats m) roots (mutableGraph formats m') roots := by
  refine h.closed.isomorphic (H := mutableGraph formats m') (fun o ho => ⟨?_,?_⟩) hshared hroots
  · simp only [mutableGraph,objectGraph,hobjs o ho]
  · obtain ⟨obj,hm,hsh,-⟩ := (h.congr hobjs hshared) o ho
    simp [mutableGraph,objectGraph,hsh]

theorem staDeepCopy_eq (fuel : Nat) (hroom : 0 < p.room) : staDeepCopy p fuel root s =
      (copyOop p (fuel + 1) root ⟨s,[]⟩).map (fun (c,r) => (c.space,r)) := by
  unfold staDeepCopy copyOop
  by_cases hatom : isImmediate root = true ∨ root = 0
  · have hsh : isShared s.mem root = true := by
      rcases hatom with h | h <;> simp [isShared,h]
    simp [hsh,hatom]
  · have hheap := not_or.mp hatom
    cases hm : s.mem root with
    | none => simp [isShared,hm,hheap]
    | some h =>
      have hget : visitedGet [] root = 0 := rfl
      have hpos : p.room ≠ 0 := by omega
      simp only [isShared_of hm hatom,if_neg hatom,hget,hpos,if_false,ne_eq,not_true_eq_false]
      split <;> rfl

theorem staDeepCopy_fits {fuel : Nat}
    (hest : estimateOop p.formats room m₀ (fuel + 1) root [] = some (n,vs))
    (hc : Copying m₀ [] ⟨s,[]⟩) (hfit : s.heap.used + n ≤ s.heap.capacity)
    (hroom : vs.length < room) (hp : vs.length ≤ p.room) (hpos : 0 < p.room) :
    ∃ c w,staDeepCopy p fuel root s = some (c.space,some w) ∧
      Grown p.formats m₀ (fun _ => False) n ⟨s,[]⟩ c ∧ Copying m₀ vs c ∧
      CopiedAs m₀ c.visited root w := by
  obtain ⟨c,w,hcopy,hg,hc',hw⟩ := copyOop_fits room (fuel + 1) root [] n vs ⟨s,[]⟩ hest hc hfit
    hroom hp
  exact ⟨c,w,by rw [staDeepCopy_eq fuel hpos,hcopy]; rfl,hg,hc',hw⟩

/-- The free part of a heap is aligned and holds no object. -/
structure ActorSpace.Ready (s : ActorSpace) : Prop where
  aligned : (s.heap.base + s.heap.used) % 16 = 0
  positive : 0 < s.heap.base + s.heap.used
  free : ∀ o : Nat,s.heap.base + s.heap.used ≤ o → o < s.heap.base + s.heap.capacity →
    s.mem o = none

theorem ActorSpace.Ready.copying (h : s.Ready) : Copying s.mem [] ⟨s,[]⟩ :=
  ⟨h.aligned,h.positive,fun _ _ ho => ho,h.free,rfl,nofun⟩

theorem length_le_of_marked (hvs : vs.Nodup) (hsub : ∀ o ∈ vs,o ∈ objs) : vs.length ≤ objs.length :=
  (subperm_of_subset hvs hsub).length_le

/-- A finite graph whose estimate fits is copied to an isomorphic one, in every memory that keeps
the copies and the shared objects. -/
theorem deepCopy_isomorphic {fuel : Nat} (hgraph : GraphOk p.formats s.mem objs)
    (hroot : isShared s.mem root = true ∨ root ∈ objs)
    (hest : staDeepCopyEstimateRoots p.formats room (fuel + 1) s.mem [root] = some n)
    (hready : s.Ready) (hfit : s.heap.used + n ≤ s.heap.capacity) (hfuel : objs.length ≤ fuel)
    (hroom : objs.length < room) (hp : objs.length < p.room) :
    ∃ s' w,staDeepCopy p fuel root s = some (s',some w) ∧
      s' = { s with heap := { s.heap with used := s.heap.used + n },mem := s'.mem } ∧
      (∀ o : Nat,¬ (s.heap.base + s.heap.used ≤ o ∧ o < s.heap.base + s.heap.used + n) →
        s'.mem o = s.mem o) ∧
      ∀ m : Memory,(∀ o : Nat,s.heap.base + s.heap.used ≤ o →
          o < s.heap.base + s.heap.used + n → m o = s'.mem o) →
        (∀ v,isShared s.mem v = true → isShared m v = true) →
        Isomorphic (mutableGraph p.formats s.mem) [root] (mutableGraph p.formats m) [w] := by
  obtain ⟨k,vs,hk,hvs⟩ := estimateOop_defined room hgraph (fuel + 1) root [] hroot
    (Nat.lt_succ_of_le (Nat.le_trans (length_filter_le ..) hfuel))
  obtain rfl : k = n := by
    simpa [staDeepCopyEstimateRoots,estimateAll,hk] using hest
  have hmark := estimateOop_marks _ _ _ _ _ _ _ _ hk
  have hnodup := hmark.2.2 nodup_nil
  have hle := length_le_of_marked hnodup (fun o ho => (hvs o ho).resolve_left not_mem_nil)
  obtain ⟨c,w,hcopy,hg,hc,hw⟩ := staDeepCopy_fits hk hready.copying hfit (by omega) (by omega)
    (by omega)
  refine ⟨c.space,w,hcopy,hg.space,fun o ho => hg.same o id ho,fun m hm hshared => ?_⟩
  obtain ⟨new,hnew,hdup,hall⟩ := hg.new
  rw [append_nil] at hnew
  have hkeys : (c.visited.map Prod.fst).Nodup := by rw [hc.keys]; exact hnodup
  have hpairs : ∀ a b : Nat,(a,b) ∈ c.visited → b ≠ 0 ∧ b % 16 = 0 ∧
      Copied p.formats s.mem m c.visited a b := by
    intro a b hab
    obtain ⟨hlo,hhi,hal,hcop⟩ := hall a b (hnew ▸ hab)
    exact ⟨hc.values a b hab,hal,hcop.mono (hm b hlo hhi) (List.Subset.refl _)⟩
  have hscan : ∀ a b h,(a,b) ∈ c.visited → s.mem a = some h → h.Scannable p.formats := by
    intro a b h hab ha
    have hmem : a ∈ vs := hc.keys ▸ List.mem_map.mpr ⟨(a,b),hab,rfl⟩
    obtain ⟨obj,hobj,-,hscan,-⟩ := hgraph a ((hvs a hmem).resolve_left not_mem_nil)
    obtain rfl : obj = h := by simpa [hobj] using ha
    exact hscan
  obtain ⟨hiso,hrel⟩ := iso_of_copied hkeys (hnew ▸ hdup) hpairs hshared hscan
  exact ⟨_,hiso,.cons (hrel root w hw) .nil⟩

end Copy

end SmalltalkA
