import ResourceQuery.Fragment
import ResourceQuery.Term.Store

set_option autoImplicit false

/-!
# Fragments: reading into a store

The words of a fragment are added to a store as they are read: each leaf when
its text is complete, each call over its arguments when it is closed, and a key
that a call takes as its first argument is put in front of the arguments that
are there.  Every word that was read stays in the store, also when the fragment
turns out to be at fault.
-/

namespace ResourceQuery.Store

/-- The words of a fragment are built in a store, and named by their ids. -/
def builder : Fragment.Builder Store WordId where
  leaf s text quote := s.leaf text quote
  call s name args := s.call name args
  prepend s key call := (call, s.insertChild call 0 key)
  word? s id := if s.isQuoted id then none else some (s.token id)
  text s id := (s.read id).render

/-- Reads a fragment into a store. -/
def parse (s : Store) (fragment : String) : Except Fault WordId × Store :=
  Fragment.parseWith builder s fragment

/-- Reads the fragments into a store, up to the first fault. -/
def parseAll (s : Store) : List String → Except Fault (List WordId) × Store
  | [] => (.ok [], s)
  | fragment :: fragments =>
    match s.parse fragment with
    | (.error fault, s) => (.error fault, s)
    | (.ok id, s) =>
      match s.parseAll fragments with
      | (.error fault, s) => (.error fault, s)
      | (.ok ids, s) => (.ok (id :: ids), s)

end ResourceQuery.Store
