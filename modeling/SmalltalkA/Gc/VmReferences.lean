import SmalltalkA.Gc.CollectRoots

/-! References into the root actor's heap that the VM holds outside of it: class table, special
objects, handles, and the literals of methods in immutable space. Every class is allocated on that
heap. -/

set_option autoImplicit false

namespace SmalltalkA

open ObjectGraph List Option

/-- The words that the VM holds outside of any heap; `methods` are the CompiledMethods in immutable
space. -/
structure VmTables where
  classTable : List Oop
  specials : List Oop
  handles : List Oop
  methods : List Oop

def VmTables.words (t : VmTables) : List Oop :=
  t.classTable ++ t.specials ++ t.handles ++ t.methods

def vmGraph (formats : Formats) (m : Memory) : ObjectGraph.Graph Oop ObjLabel :=
  objectGraph formats (fun v => isHeap v = false ∨ v = 0) m

/-- Every word of the tables leads to the same graph in both memories: classes with their method
dictionaries, methods with their literals, and so on. -/
def ReferencesSurvive (formats : Formats) (t : VmTables) (m m' : Memory) : Prop :=
  Isomorphic (vmGraph formats m) t.words (vmGraph formats m') t.words

/-! ### The bootstrap -/

def clsMethodDictionary : Nat := 15
def clsMetaclass : Nat := 17

/-- The part of `BS` that creating a class uses. -/
structure Bootstrap where
  heap : Heap
  mem : Memory
  classTable : List Oop
  nextMetaIndex : Nat
  nilOop : Oop

def Bootstrap.alloc (bs : Bootstrap) (classIndex nwords : Nat) : Option (Oop × Bootstrap) :=
  (heapAlloc bs.heap bs.mem classIndex nwords).map (fun (o,h,m) => (o,{ bs with heap := h,mem := m }))

def Bootstrap.fill (bs : Bootstrap) (o : Oop) (i : Nat) : List Oop → Option Bootstrap
  | [] => some bs
  | v :: vs => do
    let m ← bs.mem.setSlot o i v
    Bootstrap.fill { bs with mem := m } o (i + 1) vs

/-- `sta_method_dict_create`. -/
def methodDictCreate (bs : Bootstrap) (capacity : Nat) : Option (Oop × Bootstrap) := do
  let (dict,bs) ← bs.alloc clsMethodDictionary 2
  let (arr,bs) ← bs.alloc clsArray ((if capacity = 0 then 4 else capacity) * 2)
  let bs ← bs.fill dict 0 [smallIntOop 0,arr]
  return (dict,bs)

/-- `STA_FORMAT_ENCODE`. -/
def formatEncode (instVars fmtType : Nat) : Oop := smallIntOop (fmtType * 256 + instVars)

/-- `sta_class_table_set`. -/
def classTableSet (ct : List Oop) (index : Nat) (cls : Oop) : List Oop :=
  if index = 0 then ct else ct.set index cls

def metaSuper (bs : Bootstrap) (superclass : Oop) : Option Oop :=
  if superclass = 0 ∨ superclass = bs.nilOop then some bs.nilOop
  else (bs.mem superclass).map (fun h => bs.classTable.getD h.classIndex 0)

/-- `create_class`, with the name already interned. -/
def createClass (bs : Bootstrap) (nameSym superclass : Oop)
    (reservedIndex instVarCount formatType : Nat) : Option (Oop × Bootstrap) := do
  let metaIndex := bs.nextMetaIndex
  let bs := { bs with nextMetaIndex := metaIndex + 1 }
  let (cls,bs) ← bs.alloc metaIndex 4
  let (metaCls,bs) ← bs.alloc clsMetaclass 4
  let (clsMd,bs) ← methodDictCreate bs 8
  let (metaMd,bs) ← methodDictCreate bs 4
  let super ← metaSuper bs superclass
  let bs ← bs.fill cls 0 [superclass,clsMd,formatEncode instVarCount formatType,nameSym]
  let bs ← bs.fill metaCls 0 [super,metaMd,formatEncode 4 0,bs.nilOop]
  let ct := classTableSet (classTableSet bs.classTable reservedIndex cls) metaIndex metaCls
  return (cls,{ bs with classTable := ct })

/-- What bootstrapping does to its heap: the same region, more of it used. -/
structure Bootstrap.Grew (bs bs' : Bootstrap) : Prop where
  base : bs'.heap.base = bs.heap.base
  capacity : bs'.heap.capacity = bs.heap.capacity
  table : bs'.classTable = bs.classTable
  nil : bs'.nilOop = bs.nilOop

theorem Bootstrap.Grew.trans {a b c : Bootstrap} (h : a.Grew b) (h' : b.Grew c) : a.Grew c :=
  ⟨h'.base.trans h.base,h'.capacity.trans h.capacity,h'.table.trans h.table,h'.nil.trans h.nil⟩

variable {bs bs' : Bootstrap} {o : Oop} {formats : Formats} {m : Memory}

theorem Bootstrap.alloc_grew {k n o : Nat} (h : bs.alloc k n = some (o,bs')) :
    bs.Grew bs' ∧ o = bs.heap.base + bs.heap.used ∧ o < bs.heap.base + bs.heap.capacity := by
  unfold Bootstrap.alloc heapAlloc at h
  split at h
  · cases h
  · obtain ⟨rfl,rfl⟩ := Prod.mk.inj (Option.some.inj h)
    have := alignedSize_pos n
    exact ⟨⟨rfl,rfl,rfl,rfl⟩,rfl,by omega⟩

theorem Bootstrap.fill_grew {vs : List Oop} : ∀ {bs bs' : Bootstrap} {i : Nat},
    bs.fill o i vs = some bs' → bs.Grew bs' := by
  induction vs with
  | nil =>
    intro bs bs' i h
    cases h
    exact ⟨rfl,rfl,rfl,rfl⟩
  | cons v vs ih =>
    intro bs bs' i h
    simp only [Bootstrap.fill,bind_eq_bind,bind_eq_some_iff] at h
    obtain ⟨m,-,h⟩ := h
    have hrest := ih h
    exact ⟨hrest.base,hrest.capacity,hrest.table,hrest.nil⟩

theorem methodDictCreate_grew {capacity : Nat} (h : methodDictCreate bs capacity = some (o,bs')) :
    bs.Grew bs' := by
  simp only [methodDictCreate,bind_eq_bind,bind_eq_some_iff,Option.pure_def,
    some.injEq,Prod.mk.injEq,Prod.exists] at h
  obtain ⟨d,b₁,h₁,a,b₂,h₂,b₃,h₃,-,rfl⟩ := h
  exact ((Bootstrap.alloc_grew h₁).1.trans (Bootstrap.alloc_grew h₂).1).trans
    (Bootstrap.fill_grew h₃)

theorem createClass_onHeap {nameSym superclass cls : Oop} {index instVarCount formatType : Nat}
    (hbase : bs.heap.base % 16 = 0 ∧ bs.heap.used % 16 = 0) (hpos : 0 < bs.heap.base)
    (hindex : 0 < index ∧ index < bs.classTable.length) (hmeta : bs.nextMetaIndex ≠ index)
    (h : createClass bs nameSym superclass index instVarCount formatType = some (cls,bs')) :
    bs'.heap.holds cls = true ∧ cls ∈ bs'.classTable := by
  simp only [createClass,bind_eq_bind,bind_eq_some_iff,Option.pure_def,
    some.injEq,Prod.mk.injEq,Prod.exists] at h
  obtain ⟨c,b₁,h₁,mc,b₂,h₂,md,b₃,h₃,mmd,b₄,h₄,sup,-,b₅,h₅,b₆,h₆,rfl,rfl⟩ := h
  obtain ⟨hg₁,hc,hlt⟩ := Bootstrap.alloc_grew h₁
  have hg : b₁.Grew b₆ := (((Bootstrap.alloc_grew h₂).1.trans (methodDictCreate_grew h₃)).trans
    (methodDictCreate_grew h₄)).trans ((Bootstrap.fill_grew h₅).trans (Bootstrap.fill_grew h₆))
  have hgrew := hg₁.trans hg
  simp only at hc hlt
  refine ⟨?_,?_⟩
  · have hbase' : b₆.heap.base = bs.heap.base := hgrew.base
    have hcap' : b₆.heap.capacity = bs.heap.capacity := hgrew.capacity
    refine Heap.holds_iff.mpr ⟨isHeap_of_aligned (by omega),by omega,?_,?_⟩
    · simp only [hbase']
      omega
    · simp only [hbase',hcap']
      omega
  · have htable : b₆.classTable = bs.classTable := hgrew.table
    simp only [classTableSet,htable,Nat.ne_of_gt hindex.1,if_false]
    have hset : (bs.classTable.set index c)[index]? = some c := by
      simp [hindex.2]
    split
    · exact mem_of_getElem? hset
    · refine mem_of_getElem? (i := index) ?_
      rw [getElem?_set_ne hmeta]
      exact hset

/-! ### A collection of the root actor's heap -/

theorem HeapMoved.unmoved {heap heap' : Heap} {m' : Memory} {live' : List Oop}
    {R : Oop → Oop → Prop} (h : HeapMoved formats heap m heap' m' live' R)
    (hfresh : FreshRegion m heap heap'.base heap'.capacity) {o : Nat}
    (hbefore : (m o).isSome = true) (hafter : (m' o).isSome = true) : m' o = m o := by
  by_cases hold : heap.base ≤ o ∧ o < heap.base + heap.capacity
  · simp [h.gone o hold.1 hold.2] at hafter
  · by_cases hnew : heap'.base ≤ o ∧ o < heap'.base + heap'.capacity
    · simp [hfresh.free o hnew.1 hnew.2] at hbefore
    · exact h.elsewhere o (by omega) (by omega)

theorem vmGraph_node_isSome {n : ObjLabel × List Oop} (h : (vmGraph formats m).node o = some n) :
    (m o).isSome = true := by
  obtain ⟨obj,hobj,-⟩ := map_eq_some_iff.mp h
  simp [hobj]

theorem ReferencesSurvive.stays {t : VmTables} {m' : Memory} (h : ReferencesSurvive formats t m m')
    (hunmoved : ∀ o,(m o).isSome = true → (m' o).isSome = true → m' o = m o)
    (ho : Reachable (vmGraph formats m) t.words o) : (m' o).isSome = true := by
  obtain ⟨R,hiso,hroots⟩ := h
  have hfollow : ∃ b,R o b ∧ o = b := by
    refine hiso.follows (S := Eq) hroots (forall₂_same.mpr (fun _ _ _ => rfl)) ?_ ho
    rintro a _ l l' us us' rfl hg hh
    have hsame := hunmoved a (vmGraph_node_isSome hg) (vmGraph_node_isSome hh)
    have hnode : (vmGraph formats m').node a = (vmGraph formats m).node a := by
      simp [vmGraph,objectGraph,hsame]
    rw [hnode,hg,some.injEq,Prod.mk.injEq] at hh
    rw [← hh.2]
    exact forall₂_same.mpr (fun _ _ _ => rfl)
  obtain ⟨_,hR,rfl⟩ := hfollow
  obtain ⟨l,vs,ws,-,hh,-⟩ := hiso.nodes o o hR
  exact vmGraph_node_isSome hh

/-- The words of the tables denote the same objects after a collection exactly if none leads to the
root actor's heap: the tables are no roots, so what they lead to there is freed. -/
theorem vm_references_survive_iff {p : GcParams} {s : ActorSpace} {live : List Oop} {base : Nat}
    {regions : List (Option Nat)} (t : VmTables) (hok : SpaceOk p s live)
    (hregion : NextRegion p s s.heap.capacity base regions)
    (hside : (live.filter s.mem.emptyAt).length ≤ p.sideRoom)
    (hdefined : ∀ o,Reachable (vmGraph p.formats s.mem) t.words o → (s.mem o).isSome = true) :
    ∃ s',s.collect p = some (s',true) ∧ (ReferencesSurvive p.formats t s.mem s'.mem ↔
        ∀ o,Reachable (vmGraph p.formats s.mem) t.words o → s.heap.holds o = false) := by
  obtain ⟨s',live',R,hcollect,-,-,hbase,hcap,-,hmoved,-,-⟩ := collect_moves hok hregion hside
  have hfresh : FreshRegion s.mem s.heap s'.heap.base s'.heap.capacity := by
    rw [hbase,hcap]
    exact hregion.fresh
  refine ⟨s',hcollect,fun hsurvive o ho => ?_,fun hoff => ?_⟩
  · refine Bool.eq_false_iff.mpr (fun hholds => ?_)
    have hstays := hsurvive.stays (fun a => hmoved.unmoved hfresh) ho
    obtain ⟨-,-,hlo,hhi⟩ := Heap.holds_iff.mp hholds
    simp [hmoved.gone o hlo hhi] at hstays
  · have hclosed : Closed (vmGraph p.formats s.mem)
        (Reachable (vmGraph p.formats s.mem) t.words) := by
      intro a ha
      obtain ⟨obj,hobj⟩ := isSome_iff_exists.mp (hdefined a ha)
      have hnode : (vmGraph p.formats s.mem).node a =
          some (obj.label p.formats,obj.references p.formats) := by
        simp [vmGraph,objectGraph,hobj]
      exact ⟨_,_,hnode,fun v hv => or_iff_not_imp_left.mpr (.step ha hnode hv)⟩
    refine hclosed.isomorphic (H := vmGraph p.formats s'.mem) (fun a ha => ?_) (fun _ h => h)
      (fun v hv => or_iff_not_imp_left.mpr (.root hv))
    have hatom : ¬ (isHeap a = false ∨ a = 0) := by
      cases ha with
      | root _ h => exact h
      | step _ _ _ h => exact h
    have hsame : s'.mem a = s.mem a := by
      have hsome := hdefined a ha
      have hout := hoff a ha
      simp only [not_or,Bool.not_eq_false] at hatom
      refine hmoved.elsewhere a ?_ ?_
      · by_contra hin
        rw [Heap.holds_iff.mpr ⟨hatom.1,hatom.2,by omega,by omega⟩] at hout
        cases hout
      · by_contra hin
        rw [hfresh.free a (by omega) (by omega)] at hsome
        cases hsome
    exact ⟨by simp [vmGraph,objectGraph,hsame],hatom⟩

/-! An actor with one object, and a class outside of its heap that the class table and a handle
hold. -/

def outsideClassActor : ActorSpace where
  heap := ⟨4096,64,32⟩
  mem := fun o =>
    if o = 4096 then some ⟨clsArray,0,0,0,[65536]⟩
    else if o = 65536 then some ⟨clsMetaclass,0,1,0,[65536,7]⟩ else none
  roots := [⟨.actorField,4096⟩]
  regions := [some 8192]

def outsideClassTables : VmTables := ⟨[0,65536],[],[65536,7],[]⟩

theorem outsideClassActor_ok : SpaceOk twiceHeldParams outsideClassActor [4096] where
  heap := by constructor <;> decide
  roots := by decide
  immutable := by decide

theorem outsideClassActor_region : NextRegion twiceHeldParams outsideClassActor 64 8192 [] where
  next := rfl
  fresh := by constructor <;> decide
  immutable := by decide

theorem outsideClassTables_reachable (ho : Reachable (vmGraph twiceHeldParams.formats
      outsideClassActor.mem) outsideClassTables.words o) : o = 65536 := by
  refine ho.mem (P := (· = 65536)) ?_ ?_
  · rintro _ rfl
    refine ⟨_,_,rfl,?_⟩
    have hwords : ∀ v ∈ [65536,7],(isHeap v = false ∨ v = 0) ∨ v = 65536 := by decide
    exact hwords
  · have hwords : ∀ v ∈ outsideClassTables.words,(isHeap v = false ∨ v = 0) ∨ v = 65536 := by
      decide
    exact hwords

theorem vm_references_survive_outside : ∃ s',
    outsideClassActor.collect twiceHeldParams = some (s',true) ∧
    ReferencesSurvive twiceHeldParams.formats outsideClassTables outsideClassActor.mem s'.mem := by
  obtain ⟨s',hcollect,hiff⟩ := vm_references_survive_iff outsideClassTables outsideClassActor_ok
    outsideClassActor_region (by decide)
    (fun o ho => by
      obtain rfl := outsideClassTables_reachable ho
      decide)
  refine ⟨s',hcollect,hiff.mpr (fun o ho => ?_)⟩
  obtain rfl := outsideClassTables_reachable ho
  decide

def emptyBootstrap : Bootstrap where
  heap := ⟨4096,1024,0⟩
  mem := fun o => if o = 65536 then some ⟨3,0,1,0,[]⟩ else none
  classTable := List.replicate 64 0
  nextMetaIndex := 41
  nilOop := 65536

/-- The root actor as `sta_vm_create` makes it, with the heap of the bootstrap. -/
def bootstrapActor (bs : Bootstrap) : ActorSpace := ⟨bs.heap,bs.mem,[⟨.actorField,0⟩],[some 8192]⟩

/-- The class Object is created and the root actor's heap collected: the class table leads to freed
memory. -/
theorem class_table_lost : ∃ cls bs s',
    createClass emptyBootstrap (smallIntOop 0) 65536 2 0 0 = some (cls,bs) ∧
    (bootstrapActor bs).collect ⟨classFormats bs.classTable bs.mem,65536,131072,12⟩ =
      some (s',true) ∧
    ¬ ReferencesSurvive (classFormats bs.classTable bs.mem) ⟨bs.classTable,[65536],[],[]⟩
      bs.mem s'.mem := by
  refine ⟨_,_,_,rfl,rfl,?_⟩
  rintro ⟨R,hiso,hroots⟩
  rcases forall₂_same.mp hroots 4096 (by decide) with ⟨hatom,-⟩ | ⟨-,-,hR⟩
  · exact absurd hatom (show ¬ (isHeap 4096 = false ∨ 4096 = 0) by decide)
  · obtain ⟨_,_,_,-,hh,-⟩ := hiso.nodes 4096 4096 hR
    exact absurd (vmGraph_node_isSome hh) (by decide)

end SmalltalkA
