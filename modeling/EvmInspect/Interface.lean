namespace EvmInspect.Interface

def erc20 : List String := [
  "totalSupply()",
  "balanceOf(address)",
  "allowance(address,address)",
  "transfer(address,uint256)",
  "approve(address,uint256)",
  "transferFrom(address,address,uint256)"]

def erc721 : List String := [
  "balanceOf(address)",
  "ownerOf(uint256)",
  "safeTransferFrom(address,address,uint256)",
  "safeTransferFrom(address,address,uint256,bytes)",
  "transferFrom(address,address,uint256)",
  "approve(address,uint256)",
  "setApprovalForAll(address,bool)",
  "getApproved(uint256)",
  "isApprovedForAll(address,address)"]

end EvmInspect.Interface
