import Chestnut.Lib.Ring

/-!
# The intrusive list node

`ListNode` has the two pointers of a node and the methods that link a node in
or out. A list is reached from a head, itself a `ListNode`, that no element
is stored in.

## Implementation notes

The addresses of nodes are any type with decidable equality; a queue of a
cache, a node inside a slab and a node of a thread are all addresses. Every
assignment of a method is one write, and every pointer is read where the
source reads it, after the writes above it. `links` forgets the pairing of
the two pointers; on link tables, which the slab and scheduler models keep,
the methods are the edits of the same names.
-/

namespace Chestnut

open Lib

/-- `ListNode`. -/
structure ListNode (ν : Type*) where
  prev : ν
  next : ν
  deriving DecidableEq, Repr

/-- The node at every address. -/
abbrev NodeHeap (ν : Type*) := ν → ListNode ν

namespace ListNode

variable {ν : Type*}

/-- The two pointers as tables of their own. -/
def links (h : NodeHeap ν) : Links ν where
  next a := (h a).next
  prev a := (h a).prev

/-- The heap of a link table. -/
def ofLinks (l : Links ν) : NodeHeap ν := fun a => ⟨l.prev a, l.next a⟩

@[simp] theorem links_ofLinks (l : Links ν) : links (ofLinks l) = l := rfl

theorem eq_of_links {h h' : NodeHeap ν} {a : ν} (hn : (links h').next a = (links h).next a)
    (hp : (links h').prev a = (links h).prev a) : h' a = h a :=
  congrArg₂ ListNode.mk hp hn

variable [DecidableEq ν]

/-- `p->prev = v`. -/
def writePrev (h : NodeHeap ν) (p v : ν) : NodeHeap ν :=
  Function.update h p { h p with prev := v }

/-- `p->next = v`. -/
def writeNext (h : NodeHeap ν) (p v : ν) : NodeHeap ν :=
  Function.update h p { h p with next := v }

/-- `Delete`. The pointers of the node itself stay. -/
def delete (h : NodeHeap ν) (this : ν) : NodeHeap ν :=
  let h := writeNext h (h this).prev (h this).next
  writePrev h (h this).next (h this).prev

/-- `InsertBefore`. -/
def insertBefore (h : NodeHeap ν) (this children : ν) : NodeHeap ν :=
  let h := writeNext h this children
  let h := writePrev h this (h children).prev
  let h := writePrev h children this
  writeNext h (h this).prev this

/-- `InsertAfter`. -/
def insertAfter (h : NodeHeap ν) (this parent : ν) : NodeHeap ν :=
  let h := writeNext h this (h parent).next
  let h := writePrev h this parent
  let h := writeNext h (h this).prev this
  writePrev h (h this).next this

/-- `InitHead`; of the two assignments the right one comes first. -/
def initHead (h : NodeHeap ν) (this : ν) : NodeHeap ν :=
  let h := writePrev h this this
  writeNext h this (h this).prev

/-- `is_empty`. -/
def isEmpty (h : NodeHeap ν) (this : ν) : Bool := (h this).next == this

section Links

variable (h : NodeHeap ν)

theorem links_writePrev (p v : ν) : links (writePrev h p v) = (links h).setPrev p v := by
  have hn : ListNode.next ∘ writePrev h p v = ListNode.next ∘ h := by
    rw [writePrev, Function.comp_update, Function.update_eq_self_iff]
    rfl
  have hp : ListNode.prev ∘ writePrev h p v = Function.update (ListNode.prev ∘ h) p v :=
    Function.comp_update _ _ _ _
  exact congrArg₂ Links.mk hn hp

theorem links_writeNext (p v : ν) : links (writeNext h p v) = (links h).setNext p v := by
  have hn : ListNode.next ∘ writeNext h p v = Function.update (ListNode.next ∘ h) p v :=
    Function.comp_update _ _ _ _
  have hp : ListNode.prev ∘ writeNext h p v = ListNode.prev ∘ h := by
    rw [writeNext, Function.comp_update, Function.update_eq_self_iff]
    rfl
  exact congrArg₂ Links.mk hn hp

/-- The methods of the source are the edits of the link table. Each write is
taken over by itself, so nothing is assumed about which of the nodes are the same. -/
theorem links_delete (this : ν) : links (delete h this) = (links h).delete this := by
  let h₁ := writeNext h (h this).prev (h this).next
  calc links (delete h this)
      = (links h₁).setPrev ((links h₁).next this) ((links h₁).prev this) := links_writePrev ..
    _ = (links h).delete this := by
      rw [links_writeNext]
      rfl

theorem links_insertBefore (this children : ν) :
    links (insertBefore h this children) = (links h).insertBefore this children := by
  let h₁ := writeNext h this children
  let h₂ := writePrev h₁ this (h₁ children).prev
  let h₃ := writePrev h₂ children this
  have e₁ : links h₁ = (links h).setNext this children := links_writeNext ..
  have e₂ : links h₂ = (links h₁).setPrev this ((links h₁).prev children) := links_writePrev ..
  have e₃ : links h₃ = (links h₂).setPrev children this := links_writePrev ..
  calc links (insertBefore h this children)
      = (links h₃).setNext ((links h₃).prev this) this := links_writeNext ..
    _ = (links h).insertBefore this children := by
      rw [e₃, e₂, e₁]
      rfl

theorem links_insertAfter (this parent : ν) :
    links (insertAfter h this parent) = (links h).insertAfter this parent := by
  let h₁ := writeNext h this (h parent).next
  let h₂ := writePrev h₁ this parent
  let h₃ := writeNext h₂ (h₂ this).prev this
  have e₁ : links h₁ = (links h).setNext this ((links h).next parent) := links_writeNext ..
  have e₂ : links h₂ = (links h₁).setPrev this parent := links_writePrev ..
  have e₃ : links h₃ = (links h₂).setNext ((links h₂).prev this) this := links_writeNext ..
  calc links (insertAfter h this parent)
      = (links h₃).setPrev ((links h₃).next this) this := links_writePrev ..
    _ = (links h).insertAfter this parent := by
      rw [e₃, e₂, e₁]
      rfl

theorem links_initHead (this : ν) : links (initHead h this) = (links h).initHead this := by
  have hself : (writePrev h this this this).prev = this := by simp [writePrev]
  calc links (initHead h this)
      = (links (writePrev h this this)).setNext this (writePrev h this this this).prev :=
        links_writeNext ..
    _ = (links h).initHead this := by
      rw [hself, links_writePrev]
      rfl

end Links

section Frame

variable {h : NodeHeap ν} {this n a : ν}

/-- Linking in writes the node, its new neighbour and the node that the
neighbour pointed at. -/
theorem insertAfter_of_ne (hn : this ≠ n) (h₁ : a ≠ this) (h₂ : a ≠ n) (h₃ : a ≠ (h n).next) :
    insertAfter h this n a = h a := by
  apply eq_of_links
  · rw [links_insertAfter, Links.insertAfter_next, Function.update_of_ne h₂,
      Function.update_of_ne h₁]
  · have h₃' : a ≠ (links h).next n := h₃
    rw [links_insertAfter, Links.insertAfter_prev hn, Function.update_of_ne h₃',
      Function.update_of_ne h₁]

theorem insertBefore_of_ne (hn : this ≠ n) (h₁ : a ≠ this) (h₂ : a ≠ n) (h₃ : a ≠ (h n).prev) :
    insertBefore h this n a = h a := by
  apply eq_of_links
  · have h₃' : a ≠ (links h).prev n := h₃
    rw [links_insertBefore, Links.insertBefore_next hn, Function.update_of_ne h₃',
      Function.update_of_ne h₁]
  · rw [links_insertBefore, Links.insertBefore_prev, Function.update_of_ne h₂,
      Function.update_of_ne h₁]

/-- Linking out writes the two neighbours only. -/
theorem delete_of_ne (hn : (h this).prev ≠ this) (h₁ : a ≠ (h this).prev)
    (h₂ : a ≠ (h this).next) : delete h this a = h a := by
  apply eq_of_links
  · have h₁' : a ≠ (links h).prev this := h₁
    rw [links_delete, Links.delete_next, Function.update_of_ne h₁']
  · have h₂' : a ≠ (links h).next this := h₂
    have hn' : (links h).prev this ≠ this := hn
    rw [links_delete, Links.delete_prev hn', Function.update_of_ne h₂']

end Frame

end ListNode

end Chestnut
