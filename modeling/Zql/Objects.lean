/-
The messages: requests and responses, each in the wrapper that carries its
request id, and the tags that name them on the wire.

The abstract classes `Request` and `Response` are the sums of their
subclasses. `RequestGet` and `ResponseGetOk` have no constructor of their
own in the source either; a field it leaves unset until the parser assigns
it starts out as the empty string, zero or no bytes here.
-/
import Zql.Basic

namespace Zql

structure RequestGet where
  database : Str := []
  table : Str := []
  pk : UInt64 := 0
  deriving DecidableEq

structure RequestAdd where
  database : Str := []
  table : Str := []
  row : Row := ∅

structure RequestAddContinue where
  initRequestId : UInt32 := 0
  compareResult : Int32 := 0
  deriving DecidableEq

inductive Request
  | get (request : RequestGet)
  | add (request : RequestAdd)
  | addContinue (request : RequestAddContinue)

structure RequestWrapper where
  id : UInt32
  request : Request

structure ResponseGetOk where
  values : Row := ∅

structure ResponseAddTraverse where
  initRequestId : UInt32 := 0
  ciphertext : Ciphertext := []
  deriving DecidableEq

inductive Response
  | getOk (response : ResponseGetOk)
  | getEmpty
  | addOk
  | addTraverse (response : ResponseAddTraverse)

structure ResponseWrapper where
  id : UInt32
  response : Response

/-! ## Tags -/

def tagRequestWrapper : UInt32 := 1000
def tagResponseWrapper : UInt32 := 2000
def tagRequestGet : UInt32 := 1100
def tagResponseGetOk : UInt32 := 2100
def tagResponseGetNotFound : UInt32 := 2101
def tagRequestAdd : UInt32 := 1200
def tagResponseAddOk : UInt32 := 2200
def tagResponseAddTraverse : UInt32 := 2201
def tagRequestAddContinue : UInt32 := 3100

end Zql
