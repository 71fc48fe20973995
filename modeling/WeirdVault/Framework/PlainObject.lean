import WeirdVault.Framework.Json

/-!
# Plain objects as dictionaries

A lookup on an object literal finds the properties of `Object.prototype` as well as its own.
-/

namespace WeirdVault.Framework

inductive Inherited
  | constructor
  | defineGetter
  | defineSetter
  | hasOwnProperty
  | lookupGetter
  | lookupSetter
  | isPrototypeOf
  | propertyIsEnumerable
  | toString
  | valueOf
  | proto
  | toLocaleString
  deriving DecidableEq,Repr

namespace Inherited

def name : Inherited → JsString
  | .constructor => utf16 "constructor"
  | .defineGetter => utf16 "__defineGetter__"
  | .defineSetter => utf16 "__defineSetter__"
  | .hasOwnProperty => utf16 "hasOwnProperty"
  | .lookupGetter => utf16 "__lookupGetter__"
  | .lookupSetter => utf16 "__lookupSetter__"
  | .isPrototypeOf => utf16 "isPrototypeOf"
  | .propertyIsEnumerable => utf16 "propertyIsEnumerable"
  | .toString => utf16 "toString"
  | .valueOf => utf16 "valueOf"
  | .proto => utf16 "__proto__"
  | .toLocaleString => utf16 "toLocaleString"

def all : List Inherited :=
  [.constructor,.defineGetter,.defineSetter,.hasOwnProperty,.lookupGetter,.lookupSetter,
    .isPrototypeOf,.propertyIsEnumerable,.toString,.valueOf,.proto,.toLocaleString]

theorem mem_all (m : Inherited) : m ∈ all := by
  cases m <;> decide

def ofName? (key : JsString) : Option Inherited := all.find? (fun m => m.name == key)

theorem isSome_ofName? {key : JsString} : (ofName? key).isSome = true ↔ ∃ m : Inherited, m.name = key := by
  rw [ofName?,List.find?_isSome]
  constructor
  · intro h
    obtain ⟨m,-,hm⟩ := h
    exact ⟨m,beq_iff_eq.mp hm⟩
  · intro h
    obtain ⟨m,hm⟩ := h
    exact ⟨m,mem_all m,beq_iff_eq.mpr hm⟩

inductive TypeError
  | typeError
  deriving DecidableEq,Repr

/-- Whether a call without a receiver returns something truthy, or throws: `Object(v)` is an object
and `toString` says `[object Undefined]`, `isPrototypeOf` answers false of what is no object before
it looks at its receiver, the other methods convert `undefined` to an object, and the prototype is
not a function. -/
def call : Inherited → Json → Except TypeError Bool
  | .constructor,_ => .ok true
  | .toString,_ => .ok true
  | .isPrototypeOf,v => if v.isObject then .error .typeError else .ok false
  | _,_ => .error .typeError

end Inherited

structure PlainObject (α : Type) where
  entries : List (JsString × α)

inductive Property (α : Type)
  | own (a : α)
  | inherited (m : Inherited)

namespace PlainObject

variable {α : Type} (o : PlainObject α) (key : JsString)

def own? : Option α := (o.entries.find? (fun e => e.1 == key)).map Prod.snd

def get? : Option (Property α) :=
  match o.own? key with
  | some a => some (.own a)
  | none => (Inherited.ofName? key).map .inherited

def has : Bool := (o.get? key).isSome

variable {o key}

theorem has_iff : o.has key = true ↔ (∃ a, o.own? key = some a) ∨ ∃ m : Inherited, m.name = key := by
  rcases h : o.own? key with _ | a
  · simp [has,get?,h,Inherited.isSome_ofName?]
  · simp [has,get?,h]

end PlainObject

end WeirdVault.Framework
