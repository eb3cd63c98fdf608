import TypeLattice.Store.Lattice

namespace TypeLattice.Store

def preset (p : Preset) : StoreM Handle := pure p.handle

def int (h : Half) (bits : Nat) : StoreM Handle := maker.int h bits

def intConst (c : Int64) : StoreM Handle := maker.intConst c

def flt (h : Half) (bits : Nat) : StoreM Handle := maker.flt h bits

def fltConst (pattern : UInt64) : StoreM Handle := maker.fltConst pattern

def strConst (v : String) : StoreM Handle := intern (.str .bottom (some v))

def funPtr (h : Half) (targets : List Nat) : StoreM Handle :=
  intern (.funPtr h (OrdSet.ofList targets).toList)

def funPtrConst (target : Nat) : StoreM Handle := funPtr .bottom [target]

def rpc (h : Half) (targets : List Nat) : StoreM Handle :=
  intern (.rpc h (OrdSet.ofList targets).toList)

def rpcConst (target : Nat) : StoreM Handle := rpc .bottom [target]

def func (h : Half) (params : List Handle) (result : Handle) : StoreM Handle :=
  intern (.func h params result)

def tuple (h : Half) (elems : List Handle) : StoreM Handle := intern (.tuple h elems)

/-- Fields in any order. Of two fields of one name the first counts. -/
def struct (h : Half) (fields : List (String × Handle)) : StoreM Handle :=
  intern (.struct h (Fields.ofList fields))

def name (label : String) (x : Handle) : StoreM Handle := intern (.name label x)

end TypeLattice.Store
