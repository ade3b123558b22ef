/-! # Routines

The calls that planning recognises, by the name a program gives them, and the names of the
arguments it reads. Every other call is left unmapped.
-/
namespace PacketPlan

inductive Container where
  | map
  | vector
  | dchain
  | sketch
deriving DecidableEq, Inhabited

namespace Container

def all : List Container := [map, vector, dchain, sketch]

def name : Container → String
  | map => "map"
  | vector => "vector"
  | dchain => "dchain"
  | sketch => "sketch"

end Container

inductive Routine where
  | borrowChunk
  | returnChunk
  | currentTime
  | allocate (container : Container)
  | mapGet
  | mapPut
  | mapErase
  | vectorBorrow
  | vectorReturn
  | dchainAllocateIndex
  | dchainRejuvenate
  | dchainFree
  | sketchIncrement
  | sketchQuery
  | expireItems
deriving DecidableEq, Inhabited

namespace Routine

def name : Routine → String
  | borrowChunk => "packet_borrow_next_chunk"
  | returnChunk => "packet_return_chunk"
  | currentTime => "current_time"
  | allocate .map => "map_allocate"
  | allocate .vector => "vector_allocate"
  | allocate .dchain => "dchain_allocate"
  | allocate .sketch => "cms_allocate"
  | mapGet => "map_get"
  | mapPut => "map_put"
  | mapErase => "map_erase"
  | vectorBorrow => "vector_borrow"
  | vectorReturn => "vector_return"
  | dchainAllocateIndex => "dchain_allocate_new_index"
  | dchainRejuvenate => "dchain_rejuvenate_index"
  | dchainFree => "dchain_free_index"
  | sketchIncrement => "cms_increment"
  | sketchQuery => "cms_count_min"
  | expireItems => "expire_items_single_map"

def all : List Routine :=
  [borrowChunk, returnChunk, currentTime, allocate .map, allocate .vector, allocate .dchain,
    allocate .sketch, mapGet, mapPut, mapErase, vectorBorrow, vectorReturn, dchainAllocateIndex,
    dchainRejuvenate, dchainFree, sketchIncrement, sketchQuery, expireItems]

def ofName? (s : String) : Option Routine := all.find? fun r => r.name = s

/-- Routines that every target may skip. -/
def isNoOp : Routine → Bool
  | returnChunk | currentTime => true
  | _ => false

def allocated? : Routine → Option Container
  | allocate c => some c
  | _ => none

theorem mem_all (r : Routine) : r ∈ all := by
  cases r with
  | allocate c => cases c <;> decide
  | _ => decide

end Routine

/-! The arguments of calls. -/

namespace Argument

def object : String := "obj"
def key : String := "key"
def value : String := "value"
def index : String := "index"
def length : String := "length"
def capacity : String := "capacity"
def valueWidth : String := "value_width"
def elementWidth : String := "elem_width"
def height : String := "height"
def width : String := "width"
def chain : String := "chain"

end Argument

end PacketPlan
