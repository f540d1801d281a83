import Wrensong.Lib.Linked
import Wrensong.Wren.Map

/-!
# The garbage collector

The objects are nodes of a heap, linked in a list from `first`. `wrenCollectGarbage` marks what the roots lead to with a stack
of gray objects, and then takes the objects that are not marked out of the list and frees them. `wrenReallocate` starts it
when more memory is in use than `nextGC`.

`blackened` has the pointers that the `blacken` function of each type of object grays, in its order, and `size` what it adds
to the memory in use. A closure has as many upvalues, and an instance as many fields, as was allocated for it. The open
upvalues of a fiber are the list of the nodes. There is no result where a step follows a pointer to a freed object or to
none. Of the finalizer of a foreign object only the way to it is modeled, which goes through its class.
-/

namespace Wrensong.Wren.Gc

open Wrensong.Lib

/-- `SymbolTable` -/
structure SymbolTable where
  data : List (Option ℕ) := []
  capacity : ℕ := 0
  deriving DecidableEq

/-- What an object has besides its header, as far as the collector reads it. -/
inductive Contents
  /-- A method is the closure of a `METHOD_BLOCK`, or nothing. -/
  | cls (superclass : Option ℕ) (methods : List (Option ℕ)) (methodsCapacity : ℕ) (name : Option ℕ) (attributes : Value)
  | closure (fn : Option ℕ) (upvalues : List (Option ℕ))
  | fiber (frames : List (Option ℕ)) (stack : List Value) (openUpvalues : List (Option ℕ)) (caller : Option ℕ) (error : Value)
      (frameCapacity stackCapacity : ℕ)
  | fn (constants : List Value) (codeCapacity constantsCapacity : ℕ)
  | foreign
  | inst (fields : List Value)
  | list (elements : List Value) (capacity : ℕ)
  | map (entries : List MapEntry)
  | module (vars : List Value) (variableNames : SymbolTable) (name : Option ℕ)
  | range
  | string (length : ℕ)
  | upvalue (closed : Value)
  deriving DecidableEq

/-- An object. Its `next` is the pointer of the node. -/
structure Obj where
  isDark : Bool := false
  classObj : Option ℕ := none
  contents : Contents
  deriving DecidableEq

/-- The sizes of the machine's types. -/
structure Sizes where
  pointer : ℕ
  value : ℕ
  int : ℕ
  method : ℕ
  callFrame : ℕ
  mapEntry : ℕ
  objClass : ℕ
  objClosure : ℕ
  objUpvalue : ℕ
  objFiber : ℕ
  objFn : ℕ
  objInstance : ℕ
  objList : ℕ
  objMap : ℕ
  objModule : ℕ
  objRange : ℕ
  objString : ℕ

/-- A compiler: its function, constants and attributes, and of the enclosing class the fields and the attributes. -/
structure Compiler where
  fn : Option ℕ
  constants : Option ℕ
  attributes : Option ℕ
  enclosingClass : Option (SymbolTable × Option ℕ × Option ℕ)
  deriving DecidableEq

/-- `WrenVM`, as far as memory goes. The compilers are the innermost one and its parents, with the values of the three
tokens of its parser. -/
structure WrenVM where
  heap : Heap (Node Obj) := {}
  first : Option ℕ := none
  gray : List ℕ := []
  modules : Option ℕ := none
  tempRoots : List (Option ℕ) := []
  fiber : Option ℕ := none
  handles : List Value := []
  compiler : Option (List Value × List Compiler) := none
  methodNames : SymbolTable := {}
  bytesAllocated : UInt64 := 0
  nextGC : UInt64 := 0
  heapGrowthPercent : UInt64 := 50
  minHeapSize : UInt64 := 0
  -- the objects that have been freed
  freed : List ℕ := []

/-- The pointer in a value, if it is an object. -/
def pointer : Value → Option ℕ
  | .obj a => some a
  | _ => none

/-! ### What is grayed -/

/-- The pointers that `blackenObject` grays. -/
def Obj.blackened (obj : Obj) : List (Option ℕ) :=
  match obj.contents with
  | .cls superclass methods _ name attributes => [obj.classObj, superclass] ++ methods ++ [name, pointer attributes]
  | .closure fn upvalues => fn :: upvalues
  | .fiber frames stack openUpvalues caller error _ _ =>
    frames ++ stack.map pointer ++ openUpvalues ++ [caller, pointer error]
  | .fn constants _ _ => constants.map pointer
  | .foreign => []
  | .inst fields => obj.classObj :: fields.map pointer
  | .list elements _ => elements.map pointer
  | .map entries => (entries.filter MapEntry.used).flatMap fun entry => [pointer entry.key, pointer entry.value]
  | .module vars variableNames name => vars.map pointer ++ variableNames.data ++ [name]
  | .range => []
  | .string _ => []
  | .upvalue closed => [pointer closed]

/-- What `blackenObject` adds to the memory in use. -/
def Obj.size (sizes : Sizes) (obj : Obj) : ℕ :=
  match obj.contents with
  | .cls _ _ methodsCapacity _ _ => sizes.objClass + methodsCapacity * sizes.method
  | .closure _ upvalues => sizes.objClosure + sizes.pointer * upvalues.length
  | .fiber _ _ _ _ _ frameCapacity stackCapacity =>
    sizes.objFiber + frameCapacity * sizes.callFrame + stackCapacity * sizes.value
  | .fn _ codeCapacity constantsCapacity =>
    sizes.objFn + codeCapacity + sizes.value * constantsCapacity + sizes.int * codeCapacity
  | .foreign => 0
  | .inst fields => sizes.objInstance + sizes.value * fields.length
  | .list _ capacity => sizes.objList + sizes.value * capacity
  | .map entries => sizes.objMap + sizes.mapEntry * entries.length
  | .module _ variableNames _ => variableNames.capacity * sizes.pointer + sizes.objModule
  | .range => sizes.objRange
  | .string length => sizes.objString + length + 1
  | .upvalue _ => sizes.objUpvalue

namespace WrenVM

variable (sizes : Sizes)

/-- Follows the pointer to an object. -/
def deref (vm : WrenVM) (a : ℕ) : Option (Node Obj) := if a ∈ vm.freed then none else vm.heap.get? a

/-! ### Marking -/

/-- `wrenGrayObj` -/
def wrenGrayObj (vm : WrenVM) : Option ℕ → Option WrenVM
  | none => some vm
  | some a => (vm.deref a).map fun n =>
    if n.value.isDark then vm
    else { vm with heap := vm.heap.put a { n with value := { n.value with isDark := true } }, gray := a :: vm.gray }

/-- `wrenGrayObj` on one pointer after another. -/
def grayAll (vm : WrenVM) (pointers : List (Option ℕ)) : Option WrenVM := pointers.foldlM wrenGrayObj vm

/-- `wrenBlackenSymbolTable` -/
def wrenBlackenSymbolTable (vm : WrenVM) (table : SymbolTable) : Option WrenVM :=
  (vm.grayAll table.data).map fun vm =>
    { vm with bytesAllocated := vm.bytesAllocated + .ofNat (table.capacity * sizes.pointer) }

/-- The part of `wrenMarkCompiler` for one compiler. -/
def markOne (vm : WrenVM) (compiler : Compiler) : Option WrenVM := do
  let vm ← vm.grayAll [compiler.fn, compiler.constants, compiler.attributes]
  match compiler.enclosingClass with
  | none => pure vm
  | some (fields, methodAttributes, classAttributes) => do
    let vm ← vm.wrenBlackenSymbolTable sizes fields
    vm.grayAll [methodAttributes, classAttributes]

/-- `wrenMarkCompiler` -/
def wrenMarkCompiler (vm : WrenVM) (tokens : List Value) (compilers : List Compiler) : Option WrenVM := do
  let vm ← vm.grayAll (tokens.map pointer)
  compilers.foldlM (fun vm => vm.markOne sizes) vm

/-- Any object the compiler is using, if there is one. -/
def markCompiler (vm : WrenVM) : Option WrenVM :=
  match vm.compiler with
  | none => some vm
  | some (tokens, compilers) => vm.wrenMarkCompiler sizes tokens compilers

/-- `blackenObject`. The sizes are added behind the graying. -/
def blackenObject (vm : WrenVM) (a : ℕ) : Option WrenVM := do
  let n ← vm.deref a
  let vm ← vm.grayAll n.value.blackened
  pure { vm with bytesAllocated := vm.bytesAllocated + .ofNat (n.value.size sizes) }

/-- `wrenBlackenObjects`, for at most `n` objects. -/
def wrenBlackenObjects : ℕ → WrenVM → Option WrenVM
  | n, vm =>
    match vm.gray with
    | [] => some vm
    | a :: gray =>
      match n with
      | 0 => none
      | n + 1 => (blackenObject sizes { vm with gray := gray } a).bind (wrenBlackenObjects n)

/-- The first part of `wrenCollectGarbage`, which grays the roots. -/
def grayRoots (vm : WrenVM) : Option WrenVM := do
  let vm ← { vm with bytesAllocated := 0 }.wrenGrayObj vm.modules
  let vm ← vm.grayAll vm.tempRoots
  let vm ← vm.wrenGrayObj vm.fiber
  let vm ← vm.grayAll (vm.handles.map pointer)
  let vm ← vm.markCompiler sizes
  vm.wrenBlackenSymbolTable sizes vm.methodNames

/-! ### Sweeping -/

/-- `*obj`, where `obj` points to `vm->first` or to the `next` of the object at `prev`. -/
def link (vm : WrenVM) : Option ℕ → Option (Option ℕ)
  | none => some vm.first
  | some prev => (vm.deref prev).map Node.next

/-- `*obj = p` -/
def setLink (vm : WrenVM) (prev : Option ℕ) (p : Option ℕ) : WrenVM :=
  match prev with
  | none => { vm with first := p }
  | some prev => { vm with heap := vm.heap.setNext prev p }

/-- `wrenFreeObj`. The finalizer of a foreign object is looked up in its class. -/
def wrenFreeObj (vm : WrenVM) (a : ℕ) : Option WrenVM := do
  let n ← vm.deref a
  if n.value.contents = .foreign then
    (n.value.classObj.bind vm.deref).map fun _ => { vm with freed := vm.freed ++ [a] }
  else some { vm with freed := vm.freed ++ [a] }

/-- The loop of `wrenCollectGarbage` that collects the white objects, for at most `n` of them. -/
def sweepFrom : ℕ → WrenVM → Option ℕ → Option WrenVM
  | 0, _, _ => none
  | n + 1, vm, prev => do
    match ← vm.link prev with
    | none => pure vm
    | some a =>
      let node ← vm.deref a
      if node.value.isDark then
        sweepFrom n { vm with heap := vm.heap.put a { node with value := { node.value with isDark := false } } } (some a)
      else ((vm.setLink prev node.next).wrenFreeObj a).bind fun vm => sweepFrom n vm prev

/-- The end of `wrenCollectGarbage`. -/
def plan (vm : WrenVM) : WrenVM :=
  let nextGC := vm.bytesAllocated + vm.bytesAllocated * vm.heapGrowthPercent / 100
  { vm with nextGC := if nextGC < vm.minHeapSize then vm.minHeapSize else nextGC }

/-- `wrenCollectGarbage` -/
def wrenCollectGarbage (vm : WrenVM) : Option WrenVM := do
  let vm ← vm.grayRoots sizes
  let vm ← wrenBlackenObjects sizes vm.heap.next vm
  let vm ← sweepFrom (vm.heap.next + 1) vm none
  pure vm.plan

/-- `wrenReallocate`, without the block itself. -/
def wrenReallocate (vm : WrenVM) (oldSize newSize : UInt64) : Option WrenVM :=
  let vm := { vm with bytesAllocated := vm.bytesAllocated + (newSize - oldSize) }
  if 0 < newSize ∧ vm.nextGC < vm.bytesAllocated then vm.wrenCollectGarbage sizes else some vm

/-- `initObj` -/
def initObj (vm : WrenVM) (classObj : Option ℕ) (contents : Contents) : WrenVM :=
  { vm with
    heap := vm.heap.alloc ⟨{ isDark := false, classObj := classObj, contents := contents }, vm.first⟩
    first := some vm.heap.next }

/-- The loop of `wrenFreeVM`, for at most `n` objects. -/
def freeFrom : ℕ → WrenVM → Option ℕ → Option WrenVM
  | _, vm, none => some vm
  | 0, _, some _ => none
  | n + 1, vm, some a => do
    let node ← vm.deref a
    (vm.wrenFreeObj a).bind fun vm => freeFrom n vm node.next

/-- `wrenFreeVM`, as far as the objects go. -/
def wrenFreeVM (vm : WrenVM) : Option WrenVM := freeFrom vm.heap.next vm vm.first

end WrenVM

end Wrensong.Wren.Gc
