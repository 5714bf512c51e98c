import IdearNiu.Fifo.Refinement

set_option linter.style.nameCheck false

namespace IdearNiu.Fifo

/-- Where the writer stands in a put. Every load of in or out, every byte stored and the store
of in is a step of its own. -/
inductive Writer where
  | idle
  | loadIn (source : Source)
  | loadOut (source : Source) (inIdx : Uint)
  | loadTail (source : Source) (len : Uint)
  | loadOffset (source : Source) (len l : Uint)
  | copy (source : Source) (len l offset : Uint) (copied : Nat)
  | publish (source : Source) (len inIdx : Uint)

/-- Where the reader stands in a get; the last four are the test and reset of kfifo_get. -/
inductive Reader where
  | idle
  | loadIn (len : Uint)
  | loadOut (len inIdx : Uint)
  | loadTail (len : Uint)
  | loadOffset (len l : Uint)
  | copy (len l offset : Uint) (bytes : List Byte)
  | publish (len : Uint) (bytes : List Byte) (outIdx : Uint)
  | testIn
  | testOut (inIdx : Uint)
  | resetOut (inIdx : Uint)
  | resetIn (inIdx : Uint)

/-- The fifo, the two sides, and what only the proofs look at: the bytes published and got,
and for each slot which of all bytes was stored there last. -/
structure Shared where
  fifo : Kfifo
  writer : Writer
  reader : Reader
  accepted : List Byte
  delivered : List Byte
  tags : List (Option Nat)

/-- The slot of a byte: the first l bytes go from the offset on, the rest from the start. -/
def slotOf (l offset : Uint) (j : Nat) : Nat :=
  if j<l.toNat then offset.toNat+j else j-l.toNat

def writerStep (s : Shared) : Shared :=
  match s.writer with
  | .idle => s
  | .loadIn source => { s with writer := .loadOut source s.fifo.inIdx }
  | .loadOut source inIdx =>
    let len := uintMin source.len (s.fifo.size-inIdx+s.fifo.outIdx)
    { s with writer := .loadTail source len }
  | .loadTail source len =>
    let l := uintMin len (s.fifo.size-(s.fifo.inIdx&&&(s.fifo.size-1)))
    { s with writer := .loadOffset source len l }
  | .loadOffset source len l =>
    { s with writer := .copy source len l (s.fifo.inIdx&&&(s.fifo.size-1)) 0 }
  | .copy source len l offset j =>
    if j<len.toNat then
      { s with
        fifo := { s.fifo with
          buffer := s.fifo.buffer.set (slotOf l offset j) (source.data.getD j 0) }
        tags := s.tags.set (slotOf l offset j) (some (s.accepted.length+j))
        writer := .copy source len l offset (j+1) }
    else { s with writer := .publish source len s.fifo.inIdx }
  | .publish source len inIdx =>
    { s with
      fifo := { s.fifo with inIdx := inIdx+len }
      accepted := s.accepted++source.data.take len.toNat
      writer := .idle }

/-- wrapped is true of kfifo_get, false of __kfifo_get. -/
def readerStep (wrapped : Bool) (s : Shared) : Shared :=
  match s.reader with
  | .idle => s
  | .loadIn len => { s with reader := .loadOut len s.fifo.inIdx }
  | .loadOut len inIdx => { s with reader := .loadTail (uintMin len (inIdx-s.fifo.outIdx)) }
  | .loadTail len =>
    let l := uintMin len (s.fifo.size-(s.fifo.outIdx&&&(s.fifo.size-1)))
    { s with reader := .loadOffset len l }
  | .loadOffset len l =>
    { s with reader := .copy len l (s.fifo.outIdx&&&(s.fifo.size-1)) [] }
  | .copy len l offset bytes =>
    if bytes.length<len.toNat then
      let byte := s.fifo.buffer.getD (slotOf l offset bytes.length) 0
      { s with reader := .copy len l offset (bytes++[byte]) }
    else { s with reader := .publish len bytes s.fifo.outIdx }
  | .publish len bytes outIdx =>
    { s with
      fifo := { s.fifo with outIdx := outIdx+len }
      delivered := s.delivered++bytes
      reader := if wrapped then .testIn else .idle }
  | .testIn => { s with reader := .testOut s.fifo.inIdx }
  | .testOut inIdx =>
    { s with reader := if inIdx=s.fifo.outIdx then .resetOut inIdx else .idle }
  | .resetOut inIdx =>
    { s with fifo := { s.fifo with outIdx := 0 }, reader := .resetIn inIdx }
  | .resetIn _ =>
    { s with fifo := { s.fifo with inIdx := 0 }, reader := .idle }

/-- What the scheduler lets happen next. -/
inductive Act where
  | put (source : Source)
  | get (len : Uint)
  | writer
  | reader

/-- A call begins only when its side is outside one. -/
def act (wrapped : Bool) (s : Shared) : Act → Shared
  | .put source => match s.writer with
    | .idle => { s with writer := .loadIn source }
    | _ => s
  | .get len => match s.reader with
    | .idle => { s with reader := .loadIn len }
    | _ => s
  | .writer => writerStep s
  | .reader => readerStep wrapped s

def interleave (wrapped : Bool) (s : Shared) (acts : List Act) : Shared :=
  acts.foldl (act wrapped) s

def Writer.resting : Writer → Bool
  | .idle => true
  | _ => false

def Reader.resting : Reader → Bool
  | .idle => true
  | _ => false

/-- Neither side is inside a call. -/
def atRest (s : Shared) : Bool := s.writer.resting && s.reader.resting

/-- Both sides outside a call, after kfifo_init. -/
def startOf (fifo : Kfifo) : Shared :=
  ⟨fifo,.idle,.idle,[],[],List.replicate fifo.buffer.length none⟩

end IdearNiu.Fifo
