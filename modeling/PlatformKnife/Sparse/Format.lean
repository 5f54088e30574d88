import PlatformKnife.Sparse.Basic

namespace Sparse

open Bytes

def SPARSE_HEADER_MAGIC : Nat := 0xed26ff3a
def SPARSE_HEADER_MAJOR_VER : Nat := 1
def SPARSE_HEADER_MINOR_VER : Nat := 0
def SPARSE_HEADER_LEN : Nat := 28
def CHUNK_HEADER_LEN : Nat := 12

def CHUNK_TYPE_RAW : Nat := 0xCAC1
def CHUNK_TYPE_FILL : Nat := 0xCAC2
def CHUNK_TYPE_DONT_CARE : Nat := 0xCAC3
def CHUNK_TYPE_CRC32 : Nat := 0xCAC4

structure SparseHeader where
  magic : Nat
  majorVersion : Nat
  minorVersion : Nat
  fileHdrSz : Nat
  chunkHdrSz : Nat
  blkSz : Nat
  totalBlks : Nat
  totalChunks : Nat
  imageChecksum : Nat
  deriving DecidableEq

structure ChunkHeader where
  chunkType : Nat
  reserved1 : Nat
  chunkSz   : Nat
  totalSz   : Nat
  deriving DecidableEq

-- The layout of the headers in a file. A field keeps the low bytes of what is assigned to it.

def SparseHeader.encode (h : SparseHeader) : List UInt8 :=
  le 4 h.magic ++ le 2 h.majorVersion ++ le 2 h.minorVersion ++ le 2 h.fileHdrSz ++
    le 2 h.chunkHdrSz ++ le 4 h.blkSz ++ le 4 h.totalBlks ++ le 4 h.totalChunks ++
    le 4 h.imageChecksum

def SparseHeader.decode (d : List UInt8) : SparseHeader where
  magic := fromLe (d.take 4)
  majorVersion := fromLe ((d.drop 4).take 2)
  minorVersion := fromLe ((d.drop 6).take 2)
  fileHdrSz := fromLe ((d.drop 8).take 2)
  chunkHdrSz := fromLe ((d.drop 10).take 2)
  blkSz := fromLe ((d.drop 12).take 4)
  totalBlks := fromLe ((d.drop 16).take 4)
  totalChunks := fromLe ((d.drop 20).take 4)
  imageChecksum := fromLe ((d.drop 24).take 4)

def ChunkHeader.encode (h : ChunkHeader) : List UInt8 :=
  le 2 h.chunkType ++ le 2 h.reserved1 ++ le 4 h.chunkSz ++ le 4 h.totalSz

def ChunkHeader.decode (d : List UInt8) : ChunkHeader where
  chunkType := fromLe (d.take 2)
  reserved1 := fromLe ((d.drop 2).take 2)
  chunkSz   := fromLe ((d.drop 4).take 4)
  totalSz   := fromLe ((d.drop 8).take 4)

end Sparse
